import RegisterCode.Proofs.AssignedRegisters

/-! The left operand of an operator while the right one is computed. A concatenation takes
copies of its operands, as a call does of its arguments, and no code between touches them.
Every other operator takes a local from its own register, so an assignment to that local in
the right operand comes first. -/
namespace RegisterCode

open Action

def BinaryOp.Applies (op : BinaryOp) (i : Instruction) (x y : Int) : Prop :=
  match op.shape with
  | .arithmetic opcode => i.op = opcode ∧ i.b = x ∧ i.c = y
  | .comparison opcode _ swapped =>
    i.op = opcode ∧ i.b = (if swapped then y else x) ∧ i.c = if swapped then x else y
  | .concatenation => i.op = .concat ∧ i.b = x ∧ i.c = y

/-- The operand is a local, and the operator reads it from the local's own register. -/
def BinaryOp.TakesLocal (op : BinaryOp) (scopes : Scopes) (operand : Expr) (name : String)
    (q : UInt8) : Prop :=
  op.shape ≠ .concatenation ∧ operand.form = .name name ∧ scopes.register? name = some q

namespace FunctionBuilder

variable {touched : Nat → Prop} {q : UInt8} {f f' : FunctionBuilder}

def Preserves (f f' : FunctionBuilder) (r : Nat) : Prop :=
  ∃ added, f'.listing = f.listing ++ added ∧ ∀ i ∈ added, ¬ i.Disturbs r

def Overwrites (f f' : FunctionBuilder) (r : Nat) : Prop :=
  ∃ added, f'.listing = f.listing ++ added ∧ ∃ i ∈ added, i.Writes r

theorem Leaves.preserves {r : Nat} (h : f.Leaves (· ≠ r) f') : f.Preserves f' r := by
  obtain ⟨added, hcode, hadded⟩ := h.code
  exact ⟨added, hcode, fun i hi hdisturbs => hadded i hi r hdisturbs rfl⟩

theorem Leaves.overwrites (h : f.Leaves touched f') {r : Nat} (hwrites : f'.WritesFrom f.pc r) :
    f.Overwrites f' r := by
  obtain ⟨added, hcode, -⟩ := h.code
  obtain ⟨k, i, hk, hat, hwrites⟩ := hwrites
  rw [hcode, List.getElem?_append_right (by simpa using hk)] at hat
  exact ⟨added, hcode, i, List.mem_of_getElem? hat, hwrites⟩

theorem Obtains.register_lt (h : f.Obtains touched (.register q) f') (htidy : f.Tidy) :
    q.toNat < f'.nextFree := by
  rcases h.rests with ⟨howned, hnext⟩ | ⟨-, hregister, hnext⟩
  · rw [h.scopes] at howned
    have hbelow := htidy.disciplined.below _ (Scopes.isOwned_iff_mem.mp howned)
    omega
  · omega

theorem Tidy.permits_others (h : f.Tidy) {names : List String} (htaken : q.toNat < f.nextFree)
    (hothers : ∀ name ∈ names, f.scopes.register? name ≠ some q) :
    f.Permits (· ≠ q.toNat) names where
  free r hr := by omega
  owned _ howned := h.disciplined.below _ (Scopes.isOwned_iff_mem.mp howned)
  known _ _ hfound := h.plain.isOwned hfound
  named name hname register hfound hsame := by
    rw [UInt8.toNat_inj.mp hsame] at hfound
    exact hothers name hname hfound

end FunctionBuilder

namespace Lower
open ChunkBuilder FunctionBuilder

variable {touched : Nat → Prop} {e : Expr} {q : UInt8} {b b' : ChunkBuilder}

theorem operandFor_obtains (op : BinaryOp) (h : b.current.Permits touched e.assigned) :
    (operandFor op (expr e)).Promises b fun short b' =>
      b.current.Obtains touched short.holder b'.current := by
  unfold operandFor
  split
  · apply (copied_takes h).bind
    intro register b₁ htaken
    exact promises_pure (htaken.obtains h)
  · apply ((framed_expr e (List.Subset.refl _) none).obtains h).bind
    intro operand b₁ hlowered
    exact toShort_obtains h hlowered

theorem operandFor_liesIn (op : BinaryOp) (hb : b.Reached) (e : Expr) :
    (operandFor op (expr e)).Promises b fun short _ => ∀ q, short.holder = .register q →
      short.field = q.toNat ∧
        ((∃ name, op.TakesLocal b.current.scopes e name q) ∨ q.toNat = b.current.nextFree) := by
  unfold operandFor
  split
  · apply (copied_takes (hb.permits _)).bind
    intro register b₁ htaken
    apply promises_pure
    rintro _ ⟨⟩
    exact ⟨rfl, .inr htaken.register⟩
  · next hshape =>
    apply (toShort_liesIn hb e).mono
    intro short _ hlies q hq
    obtain ⟨hfield, ⟨name, hform, hfound⟩ | hfree⟩ := hlies q hq
    · exact ⟨hfield, .inl ⟨name, hshape, hform, hfound⟩⟩
    · exact ⟨hfield, .inr hfree⟩

theorem free_listing (operand : Operand) (b : ChunkBuilder) :
    (free operand).Promises b fun _ b' => b'.current.listing = b.current.listing := by
  cases operand with
  | register register =>
    refine ⟨fun hrun => ?_⟩
    obtain ⟨_, hfree, rfl⟩ := onCurrent_eq_ok.mp hrun
    obtain ⟨nextFree, rfl⟩ := free_only_nextFree hfree
    rfl
  | _ => exact promises_pure rfl

theorem emit_listing (op : Opcode) (x y z : Int) (b : ChunkBuilder) :
    (emit op x y z).Promises b fun _ b' => b'.current.listing =
      b.current.listing ++ [b.current.stamped { op, a := x, b := y, c := z }] := by
  refine ⟨fun hrun => ?_⟩
  obtain ⟨-, rfl⟩ := (emit_ensures op x y z b).of_ok hrun
  exact listing_placed _ _

theorem compare_listing (op : Opcode) (expected : Bool) (x y : Int) (target : UInt8)
    (b : ChunkBuilder) :
    (compare op expected x y target).Promises b fun _ b' => ∃ more,
      b'.current.listing = b.current.listing ++
        b.current.stamped { op, a := expected.toNat, b := x, c := y } :: more := by
  apply (emit_listing op _ x y b).bind
  intro _ b₁ htest
  apply (jump_restores b₁).bind
  rintro toTrue b₂ ⟨htoTrue, hjumped⟩
  apply (emit_restores b₂ fun _ _ => trivial).bind
  intro _ b₃ hfalse
  apply (aimHere_restores (Nat.le_of_eq htoTrue.symm) (hjumped.trans hfalse)).bind
  intro _ b₄ haimed
  apply (emit_restores b₄ fun _ _ => trivial).mono
  intro _ b₅ htrue
  obtain ⟨more, hcode, -⟩ := (haimed.trans htrue).code
  exact ⟨more, by rw [hcode, htest, List.append_assoc, List.singleton_append]⟩

theorem operate_applies (op : BinaryOp) (x y : Int) (target : UInt8) (b : ChunkBuilder) :
    (operate op x y target).Promises b fun _ b' =>
      ∃ i more, b'.current.listing = b.current.listing ++ i :: more ∧ op.Applies i x y := by
  have hemit : ∀ (opcode : Opcode) (applies : Instruction → Prop),
      applies (b.current.stamped { op := opcode, a := target.toNat, b := x, c := y }) →
      (emit opcode target.toNat x y).Promises b fun _ b' =>
        ∃ i more, b'.current.listing = b.current.listing ++ i :: more ∧ applies i :=
    fun opcode _ happlies => (emit_listing opcode _ x y b).mono fun _ _ hcode =>
      ⟨_, [], hcode, happlies⟩
  unfold operate BinaryOp.Applies
  cases op.shape with
  | arithmetic opcode => exact hemit opcode _ ⟨rfl, rfl, rfl⟩
  | concatenation => exact hemit .concat _ ⟨rfl, rfl, rfl⟩
  | comparison opcode expected swapped =>
    cases swapped with
    | true =>
      apply (compare_listing opcode expected y x target b).mono
      rintro _ _ ⟨more, hcode⟩
      exact ⟨_, more, hcode, rfl, rfl, rfl⟩
    | false =>
      apply (compare_listing opcode expected x y target b).mono
      rintro _ _ ⟨more, hcode⟩
      exact ⟨_, more, hcode, rfl, rfl, rfl⟩

theorem operandFor_preserves (op : BinaryOp) {left right : Expr} {first : Short} (hb : b.Reached)
    (hleft : operandFor op (expr left) b = .ok first b') (hq : first.holder = .register q)
    (hkept : ∀ name ∈ right.assigned, ¬ op.TakesLocal b.current.scopes left name q) :
    (operandFor op (expr right)).Promises b' fun _ b'' =>
      b'.current.Preserves b''.current q.toNat := by
  have hb' : b'.Reached := (upholding_operandFor op left).reached hb hleft
  have hheld := (operandFor_obtains op (hb.permits _)).of_ok hleft
  obtain ⟨-, hlies⟩ := (operandFor_liesIn op hb left).of_ok hleft q hq
  rw [hq] at hheld
  have hothers : ∀ name ∈ right.assigned, b'.current.scopes.register? name ≠ some q := by
    intro name hassigned hfound
    rw [hheld.scopes] at hfound
    rcases hlies with ⟨other, hshape, hform, hother⟩ | hfresh
    -- a local has one name only, and a fresh register has none
    · obtain rfl := hb.current_tidy.register?_inj hfound hother
      exact hkept name hassigned ⟨hshape, hform, hother⟩
    · have hbelow := hb.current_tidy.register?_lt hfound
      omega
  have hpermits := hb'.current_tidy.permits_others (hheld.register_lt hb.current_tidy) hothers
  exact (operandFor_obtains op hpermits).mono fun _ _ hadded =>
    hadded.toLeaves.preserves

theorem operandFor_overwrites (op : BinaryOp) {right : Expr} {name : String} (hb : b.Reached)
    (hname : b.current.scopes.register? name = some q) (hassigned : name ∈ right.recomputed) :
    (operandFor op (expr right)).Promises b fun _ b' =>
      b.current.Overwrites b'.current q.toNat := by
  refine ⟨fun hrun => ?_⟩
  have hheld := (operandFor_obtains op (hb.permits _)).of_ok hrun
  have hwrites := (assigns_operandFor op (assigns_expr right hassigned) b hb hname).of_ok hrun
  exact hheld.toLeaves.overwrites hwrites

theorem arguments_preserve {arg : Expr} (hb : b.Reached)
    (hfirst : copied (expr arg) b = .ok q b') (rest : List Expr) :
    (arguments rest).Promises b' fun _ b'' => b'.current.Preserves b''.current q.toNat := by
  have hb' : b'.Reached := (upholding_copied arg).reached hb hfirst
  have htaken := (copied_takes (hb.permits _)).of_ok hfirst
  have hlt : q.toNat < b'.current.nextFree := by
    rw [htaken.nextFree, htaken.register]
    exact Nat.lt_succ_self _
  have hothers : ∀ name ∈ Expr.listAssigned rest,
      b'.current.scopes.register? name ≠ some q := by
    intro name _ hfound
    rw [htaken.scopes] at hfound
    have hbelow := hb.current_tidy.register?_lt hfound
    have hregister := htaken.register
    omega
  have hpermits := hb'.current_tidy.permits_others hlt hothers
  exact (piling_arguments rest (List.Subset.refl _) _ b' hpermits).mono fun _ _ hstacked =>
    hstacked.toLeaves.preserves

/-- The left operand of an operator stays as it is while the right one is computed, unless it
is a local that is read from its own register and the right operand assigns it; if that gives
the local a value which is not its own already, the operator does not see the one from before.
A concatenation has copies of its operands, as a call has of its arguments, and these stay as
they are whatever is assigned. -/
theorem leftOperand_kept_unless_assigned (hb : b.Reached) :
    (∀ op left right span type symbol dest operand b',
      expr ⟨.binary op left right, span, type, symbol⟩ dest b = .ok operand b' →
      ∃ (first second : Short) (b₁ b₂ : ChunkBuilder) (i : Instruction) (more : List Instruction),
        (do let _ ← place dest; operandFor op (expr left)) b = .ok first b₁ ∧
        operandFor op (expr right) b₁ = .ok second b₂ ∧
        b'.current.listing = b₂.current.listing ++ i :: more ∧
        op.Applies i first.field second.field ∧
        ∀ q, first.holder = .register q → first.field = q.toNat ∧
          ((∀ name ∈ right.assigned, ¬ op.TakesLocal b.current.scopes left name q) →
            b₁.current.Preserves b₂.current q.toNat) ∧
          ∀ name ∈ right.recomputed, op.TakesLocal b.current.scopes left name q →
            b₁.current.Overwrites b₂.current q.toNat) ∧
    ∀ arg rest registers b', arguments (arg :: rest) b = .ok registers b' →
      ∃ register others b₁, copied (expr arg) b = .ok register b₁ ∧ b₁.Reached ∧
        arguments rest b₁ = .ok others b' ∧ registers = register :: others ∧
        b₁.current.Preserves b'.current register.toNat := by
  constructor
  · intro op left right span type symbol dest operand b' hrun
    rw [expr] at hrun
    obtain ⟨target, b₀, hplace, hinto, -⟩ := inPlace_eq_ok.mp hrun
    rw [binaryInto_eq] at hinto
    obtain ⟨first, b₁, hleft, hinto⟩ := bind_eq_ok.mp hinto
    obtain ⟨second, b₂, hright, hinto⟩ := bind_eq_ok.mp hinto
    obtain ⟨_, b₂', hfree, hinto⟩ := bind_eq_ok.mp hinto
    obtain ⟨_, b₃, hfree', hoperate⟩ := bind_eq_ok.mp hinto
    have hb₀ := (upholding_place dest).reached hb hplace
    have hscopes := (((upholding_place dest).upholds b hb).of_ok hplace).scopes
    have hb₁ := (upholding_operandFor op left).reached hb₀ hleft
    have hscopes₁ := (((upholding_operandFor op left).upholds b₀ hb₀).of_ok hleft).scopes
    obtain ⟨i, more, hcode, happlies⟩ := (operate_applies op _ _ target b₃).of_ok hoperate
    rw [(free_listing _ _).of_ok hfree', (free_listing _ _).of_ok hfree] at hcode
    refine ⟨first, second, b₁, b₂, i, more, bind_eq_ok.mpr ⟨target, b₀, hplace, hleft⟩, hright,
      hcode, happlies, ?_⟩
    rw [← hscopes]
    intro q hq
    refine ⟨((operandFor_liesIn op hb₀ left).of_ok hleft q hq).1, ?_, ?_⟩
    · intro hkept
      exact (operandFor_preserves op hb₀ hleft hq hkept).of_ok hright
    · rintro name hassigned ⟨-, -, hfound⟩
      rw [← hscopes₁] at hfound
      exact (operandFor_overwrites op hb₁ hfound hassigned).of_ok hright
  · intro arg rest registers b' hrun
    rw [arguments_cons] at hrun
    obtain ⟨register, b₁, hfirst, hrun⟩ := bind_eq_ok.mp hrun
    obtain ⟨others, _, hrest, hreturn⟩ := bind_eq_ok.mp hrun
    cases hreturn
    exact ⟨register, others, b₁, hfirst, (upholding_copied arg).reached hb hfirst, hrest, rfl,
      (arguments_preserve hb hfirst rest).of_ok hrest⟩

/-- `y = z and true`. -/
def assigningOther : Expr :=
  .of (.assign "y" (.of (.logical .and (.of (.name "z")) (.of (.boolean true)))))

/-- `y = z and (x = true)`. -/
def assigningInside : Expr :=
  .of (.assign "y" (.of (.logical .and (.of (.name "z"))
    (.of (.assign "x" (.of (.boolean true)))))))

theorem leftOperand_kept_unless_assigned_locals : declared.Reached ∧
    (∃ first second b₁ b₂,
      (do let _ ← place none; operandFor .lt (expr (.of (.name "x")))) declared = .ok first b₁ ∧
      operandFor .lt (expr assigningOther) b₁ = .ok second b₂ ∧ first.holder = .register 0 ∧
      b₁.current.Preserves b₂.current 0) ∧
    (∃ first second b₁ b₂,
      (do let _ ← place none; operandFor .lt (expr (.of (.name "x")))) declared = .ok first b₁ ∧
      operandFor .lt (expr assigningInside) b₁ = .ok second b₂ ∧ first.holder = .register 0 ∧
      b₁.current.Overwrites b₂.current 0) ∧
    ∃ others b₁ b₂, copied (expr (.of (.name "x"))) declared = .ok 3 b₁ ∧
      arguments [assigningInside] b₁ = .ok others b₂ ∧ b₁.current.Preserves b₂.current 3 := by
  have hreached : declared.Reached := (stepwise.holds_statements _).reached ⟨{}, none, .refl⟩
  have hleft := value?_eq_some
    (show Action.value? (do let _ ← place none; operandFor .lt (expr (.of (.name "x")))) declared =
      some (.register 0) by decide +kernel)
  have hother := value?_eq_some
    (show (expr (.of (.binary .lt (.of (.name "x")) assigningOther)) none).value? declared =
      some (.register 3) by decide +kernel)
  have hinside := value?_eq_some
    (show (expr (.of (.binary .lt (.of (.name "x")) assigningInside)) none).value? declared =
      some (.register 3) by decide +kernel)
  have hargs := value?_eq_some
    (show (arguments [.of (.name "x"), assigningInside]).value? declared = some [3, 4] by
      decide +kernel)
  have hx : declared.current.scopes.register? "x" = some 0 := by decide +kernel
  obtain ⟨hoperators, harguments⟩ := leftOperand_kept_unless_assigned hreached
  refine ⟨hreached, ?_, ?_, ?_⟩
  · obtain ⟨first, second, b₁, b₂, _, _, hfirst, hsecond, -, -, hregister⟩ :=
      hoperators _ _ _ _ _ _ _ _ _ hother
    rw [hleft] at hfirst
    cases hfirst
    refine ⟨_, second, _, b₂, hleft, hsecond, rfl, (hregister 0 rfl).2.1 ?_⟩
    rintro name hname ⟨-, hform, -⟩
    simp_all [assigningOther, Expr.of, Expr.assigned, ExprForm.assigned]
  · obtain ⟨first, second, b₁, b₂, _, _, hfirst, hsecond, -, -, hregister⟩ :=
      hoperators _ _ _ _ _ _ _ _ _ hinside
    rw [hleft] at hfirst
    cases hfirst
    refine ⟨_, second, _, b₂, hleft, hsecond, rfl, (hregister 0 rfl).2.2 "x" ?_ ?_⟩
    · decide +kernel
    · exact ⟨by simp [BinaryOp.shape], rfl, hx⟩
  · obtain ⟨register, others, b₁, hfirst, -, hrest, hregisters, hkept⟩ :=
      harguments _ _ _ _ hargs
    obtain ⟨rfl, rfl⟩ := List.cons.inj hregisters
    exact ⟨_, b₁, _, hfirst, hrest, hkept⟩

def oneLocal : ChunkBuilder :=
  (statements [.of (.declare "x" none)]).after (.start {} none)

/-- The value that a left operand had is not always the one that the operator sees: of
`x == (x = true)`, the right operand is computed into the register that the left one is. -/
theorem not_leftOperand_kept : ¬ ∀ (b : ChunkBuilder) (op : BinaryOp) (left right : Expr)
    (first second : Short) (b₁ b₂ : ChunkBuilder) (q : UInt8), b.Reached →
    op.shape ≠ .concatenation →
    (∃ operand b', expr (.of (.binary op left right)) none b = .ok operand b') →
    (do let _ ← place none; operandFor op (expr left)) b = .ok first b₁ →
    operandFor op (expr right) b₁ = .ok second b₂ → first.holder = .register q →
    b₁.current.Preserves b₂.current q.toNat := by
  intro hkept
  have hreached : oneLocal.Reached := (stepwise.holds_statements _).reached ⟨{}, none, .refl⟩
  have hrun := value?_eq_some
    (show (expr (.of (.binary .eq (.of (.name "x")) (.of (.assign "x" (.of (.boolean true))))))
      none).value? oneLocal = some (.register 1) by decide +kernel)
  have hleft := value?_eq_some
    (show Action.value? (do let _ ← place none; operandFor .eq (expr (.of (.name "x")))) oneLocal =
      some (.register 0) by decide +kernel)
  generalize hb₁ : Action.after _ oneLocal = b₁ at hleft
  have hright := value?_eq_some
    (show (operandFor .eq (expr (.of (.assign "x" (.of (.boolean true)))))).value? b₁ =
      some (.register 2) by rw [← hb₁]; decide +kernel)
  have hadded : ((operandFor .eq (expr (.of (.assign "x" (.of (.boolean true)))))).after
      b₁).current.listing = b₁.current.listing ++
        [{ op := .loadBool, a := 0, b := 1 }, { op := .move, a := 2, b := 0 }] := by
    rw [← hb₁]
    decide +kernel
  obtain ⟨added, hcode, hquiet⟩ := hkept oneLocal .eq _ _ _ _ _ _ 0 hreached
    (by simp [BinaryOp.shape]) ⟨_, _, hrun⟩ hleft hright rfl
  rw [hadded] at hcode
  rw [← List.append_cancel_left hcode] at hquiet
  exact hquiet _ List.mem_cons_self (.inl rfl)

end Lower

end RegisterCode
