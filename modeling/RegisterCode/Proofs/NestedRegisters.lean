import RegisterCode.Proofs.RegisterDiscipline

/-! Registers in nested use. What is taken inside is given back inside, by whichever of
three rules: the newest register first, the newest temporary first, or all registers of a
scope at once. So nested use leaves no trace but the high-water mark, and nothing but the
number of registers ends it. -/
namespace RegisterCode

open Action

namespace Scopes

theorem owned_gain {stack : List Scope} (hstack : stack ≠ []) (bound : List Local)
    (log log' : List LocalRange) :
    owned ⟨gain bound stack, log⟩ = owned ⟨stack, log'⟩ ++
      (bound.filter (!·.isAlias)).map fun l => l.register.toNat := by
  cases stack with
  | nil => exact absurd rfl hstack
  | cons scope outer =>
    rw [gain, owned_cons _ _ _ log', owned_cons _ _ _ log', List.append_assoc]
    simp [Scope.owned]

end Scopes

namespace FunctionBuilder

/-- A local that is declared: with a register of its own, or as a name for some register. -/
inductive Declaration
  | own (name : String)
  | label (name : String) (register : UInt8)

namespace Declaration

def name : Declaration → String
  | .own name | .label name _ => name

def size : Declaration → Nat
  | .own _ => 1
  | .label _ _ => 0

def operation : Declaration → Operation
  | .own name => .bindLocal name
  | .label name register => .nameRegister name register

def declared (pc : UInt32) (n : Nat) : Declaration → Local
  | .own name => { name, register := .ofNat n, startPc := pc }
  | .label name register => { name, register, startPc := pc, isAlias := true }

@[simp] theorem name_declared (pc : UInt32) (n : Nat) (d : Declaration) :
    (d.declared pc n).name = d.name := by
  cases d <;> rfl

def width : List Declaration → Nat
  | [] => 0
  | d :: rest => d.size + width rest

@[simp] theorem width_append (first second : List Declaration) :
    width (first ++ second) = width first + width second := by
  induction first with
  | nil => simp [width]
  | cons d rest ih => simp [width, ih, Nat.add_assoc]

def locals (pc : UInt32) : Nat → List Declaration → List Local
  | _, [] => []
  | n, d :: rest => d.declared pc n :: locals pc (n + d.size) rest

theorem locals_append (pc : UInt32) (n : Nat) (first second : List Declaration) :
    locals pc n (first ++ second) = locals pc n first ++ locals pc (n + width first) second := by
  induction first generalizing n with
  | nil => rfl
  | cons d rest ih => simp [locals, width, ih, Nat.add_assoc]

@[simp] theorem name_locals (pc : UInt32) (n : Nat) (ds : List Declaration) :
    (locals pc n ds).map Local.name = ds.map name := by
  induction ds generalizing n with
  | nil => rfl
  | cons d rest ih => simp [locals, ih]

theorem owned_locals (pc : UInt32) {n : Nat} {ds : List Declaration}
    (h : n + width ds ≤ maxRegisters) :
    ((locals pc n ds).filter (!·.isAlias)).map (fun l => l.register.toNat) =
      List.range' n (width ds) := by
  induction ds generalizing n with
  | nil => rfl
  | cons d rest ih =>
    have hwidth : width (d :: rest) = d.size + width rest := rfl
    have hrest := ih (n := n + d.size) (by omega)
    cases d with
    | label name register =>
      rw [hwidth, locals, List.filter_cons_of_neg (by simp [declared]), hrest]
      simp [size]
    | own name =>
      have hregister : (UInt8.ofNat n).toNat = n := by
        rw [UInt8.toNat_ofNat']
        simp only [maxRegisters, hwidth, size] at h
        omega
      rw [hwidth, locals, List.filter_cons_of_pos (by simp [declared]), List.map_cons, hrest,
        size, Nat.add_comm 1, List.range'_succ, declared, hregister]

theorem lowest_locals (pc : UInt32) {n : Nat} {ds : List Declaration}
    (h : n + width ds ≤ maxRegisters) :
    let lowest? := (((locals pc n ds).filter (!·.isAlias)).map Local.register).min?
    (lowest? = none → width ds = 0) ∧ ∀ lowest, lowest? = some lowest → lowest.toNat = n := by
  have howned := owned_locals pc h
  have hlength := congrArg List.length howned
  rw [List.length_map, List.length_range'] at hlength
  have hown : ∀ l ∈ (locals pc n ds).filter (!·.isAlias), l.isAlias = false := by simp
  have hlowest := @Scopes.lowest_of_registers _ n hown (by rw [howned, hlength])
  simp only [List.filter_filter, Bool.and_self] at hlowest
  constructor
  · intro hnone
    rw [hnone] at hlowest
    rw [← hlength, hlowest, List.length_nil]
  · intro lowest hsome
    rwa [hsome] at hlowest

end Declaration

/-- Operations on registers that come in pairs, each pair around others, together with the
locals that they declare in the scope around them. -/
inductive Nesting : List Declaration → Type
  | nothing : Nesting []
  | seq {first second : List Declaration} (one : Nesting first) (other : Nesting second) :
    Nesting (first ++ second)
  /-- Take a register, and give back the one that was handed out. -/
  | take (inside : Nesting []) : Nesting []
  /-- Push a temporary, and pop it. -/
  | push (inside : Nesting []) : Nesting []
  | scope (name : String) {ds : List Declaration} (body : Nesting ds)
    (distinct : (ds.map Declaration.name).Nodup) : Nesting []
  | declare (d : Declaration) : Nesting [d]

/-- A run of operations that ends at the first one that fails, and tells which it was. -/
abbrev Attempt : Type → Type :=
  EStateM (Operation × Error) FunctionBuilder

def Operation.attempt (operation : Operation) : Attempt (Option UInt8) := fun f =>
  match operation.run f with
  | .ok register f' => .ok register f'
  | .error error f' => .error (operation, error) f'

def Operation.takesRegister : Operation → Bool
  | .allocate | .pushTemporary | .bindLocal _ => true
  | _ => false

namespace Nesting

def run : {ds : List Declaration} → Nesting ds → Attempt Unit
  | _, .nothing => pure ()
  | _, .seq one other => do
    one.run
    other.run
  | _, .take inside => do
    let some register ← Operation.allocate.attempt | return
    inside.run
    let _ ← (Operation.free register).attempt
  | _, .push inside => do
    let _ ← Operation.pushTemporary.attempt
    inside.run
    let _ ← Operation.popTemporary.attempt
  | _, .scope name body _ => do
    let _ ← (Operation.openScope name).attempt
    body.run
    let _ ← Operation.closeScope.attempt
  | _, .declare d => do
    let _ ← d.operation.attempt

/-- The most registers that are taken at once, when `n` are taken before. -/
def peak : {ds : List Declaration} → Nesting ds → Nat → Nat
  | _, .nothing, n => n
  | _, @seq first _ one other, n => max (one.peak n) (other.peak (n + Declaration.width first))
  | _, .take inside, n | _, .push inside, n => inside.peak (n + 1)
  | _, .scope _ body _, n => body.peak n
  | _, .declare d, n => n + d.size

theorem width_le_peak {ds : List Declaration} (s : Nesting ds) (n : Nat) :
    n + Declaration.width ds ≤ s.peak n := by
  induction s generalizing n with
  | nothing => exact Nat.le_refl n
  | @seq first second one other _ ih =>
    have hother := ih (n + Declaration.width first)
    rw [peak, Declaration.width_append]
    omega
  | take inside ih | push inside ih =>
    have hinside := ih (n + 1)
    rw [peak]
    simp only [Declaration.width] at hinside ⊢
    omega
  | scope name body _ ih =>
    have hbody := ih n
    rw [peak]
    simp only [Declaration.width] at hbody ⊢
    omega
  | declare d => simp [peak, Declaration.width]

def result {ds : List Declaration} (s : Nesting ds) (log : List LocalRange)
    (f : FunctionBuilder) : FunctionBuilder :=
  { f with
    nextFree := f.nextFree + Declaration.width ds
    highWater := max f.highWater (s.peak f.nextFree)
    scopes := ⟨Scopes.gain (Declaration.locals (.ofNat f.pc) f.nextFree ds) f.scopes.stack, log⟩ }

theorem result_seq {first second : List Declaration} (one : Nesting first)
    (other : Nesting second) (log log' : List LocalRange) (f : FunctionBuilder) :
    other.result log' (one.result log f) = (one.seq other).result log' f := by
  simp only [result, pc, peak, Declaration.width_append, Declaration.locals_append,
    Scopes.gain_gain, Nat.add_assoc, Nat.max_assoc]

/-- A nesting that declares nothing leaves no trace but the high-water mark and the log. -/
theorem result_nil (s : Nesting []) (log : List LocalRange) (f : FunctionBuilder) :
    s.result log f = { f with
      highWater := max f.highWater (s.peak f.nextFree)
      scopes := ⟨f.scopes.stack, log⟩ } := by
  simp [result, Declaration.width, Declaration.locals]

end Nesting

variable {f f' : FunctionBuilder} {ds : List Declaration}

theorem Disciplined.nesting (h : f.Disciplined) (hopen : f.scopes.stack ≠ []) (s : Nesting ds)
    (hfits : s.peak f.nextFree ≤ maxRegisters) (log : List LocalRange) :
    (s.result log f).Disciplined := by
  have hwidth := s.width_le_peak f.nextFree
  have howned : (s.result log f).scopes.owned =
      f.scopes.owned ++ List.range' f.nextFree (Declaration.width ds) := by
    rw [Nesting.result, Scopes.owned_gain hopen _ log f.scopes.log,
      Declaration.owned_locals _ (Nat.le_trans hwidth hfits)]
  constructor
  · rw [howned, List.pairwise_append]
    refine ⟨h.ascending, List.pairwise_lt_range', ?_⟩
    intro n hn m hm
    exact Nat.lt_of_lt_of_le (h.below n hn) (List.mem_range'_1.mp hm).1
  · rw [howned]
    intro n hn
    rcases List.mem_append.mp hn with hn | hn
    · exact Nat.lt_of_lt_of_le (h.below n hn) (Nat.le_add_right _ _)
    · exact (List.mem_range'_1.mp hn).2
  · exact Nat.le_trans hwidth (Nat.le_max_right _ _)
  · exact Nat.max_le.mpr ⟨h.highWater_le, hfits⟩

def CanDeclare (f : FunctionBuilder) (ds : List Declaration) : Prop :=
  (ds.map Declaration.name).Nodup ∧
    ∃ scope outer, f.scopes.stack = scope :: outer ∧
      ∀ name ∈ ds.map Declaration.name, name ∉ scope.locals.map Local.name

theorem CanDeclare.stack_ne_nil (h : f.CanDeclare ds) : f.scopes.stack ≠ [] := by
  obtain ⟨-, scope, outer, hstack, -⟩ := h
  simp [hstack]

theorem canDeclare_nil (hopen : f.scopes.stack ≠ []) : f.CanDeclare [] := by
  obtain ⟨scope, outer, hstack⟩ := List.exists_cons_of_ne_nil hopen
  exact ⟨List.nodup_nil, scope, outer, hstack, by simp⟩

theorem CanDeclare.left {first second : List Declaration} (h : f.CanDeclare (first ++ second)) :
    f.CanDeclare first := by
  obtain ⟨hdistinct, scope, outer, hstack, hfresh⟩ := h
  rw [List.map_append] at hdistinct hfresh
  exact ⟨(List.nodup_append.mp hdistinct).1, scope, outer, hstack,
    fun name hname => hfresh name (List.mem_append_left _ hname)⟩

theorem CanDeclare.right {first second : List Declaration} (h : f.CanDeclare (first ++ second))
    (s : Nesting first) (log : List LocalRange) : (s.result log f).CanDeclare second := by
  obtain ⟨hdistinct, scope, outer, hstack, hfresh⟩ := h
  rw [List.map_append] at hdistinct hfresh
  obtain ⟨-, hsecond, hapart⟩ := List.nodup_append.mp hdistinct
  refine ⟨hsecond, _, outer, by rw [Nesting.result, hstack, Scopes.gain], ?_⟩
  intro name hname
  rw [List.map_append, Declaration.name_locals, List.mem_append, not_or]
  refine ⟨hfresh name (List.mem_append_right _ hname), ?_⟩
  intro hmem
  exact hapart name hmem name hname rfl

theorem CanDeclare.checkFresh {d : Declaration} (h : f.CanDeclare [d]) (line : UInt32) :
    f.scopes.checkFresh d.name line = .ok () := by
  obtain ⟨-, scope, outer, hstack, hfresh⟩ := h
  have hnone : scope.locals.any (·.name == d.name) = false := by
    rw [List.any_eq_false]
    intro l hl
    rw [beq_iff_eq]
    intro hname
    exact hfresh d.name (by simp) (hname ▸ List.mem_map_of_mem hl)
  simp [Scopes.checkFresh, hstack, hnone]

namespace Attempt

variable {α β : Type} {action : Attempt α} {next : α → Attempt β}

theorem bind_of_ok {value : α} (h : action f = .ok value f') :
    (action >>= next) f = next value f' := by
  change EStateM.bind action next f = _
  simp [EStateM.bind, h]

theorem bind_of_error {failure : Operation × Error} (h : action f = .error failure f') :
    (action >>= next) f = .error failure f' := by
  change EStateM.bind action next f = _
  simp [EStateM.bind, h]

end Attempt

def exhausted (line : UInt32) : Error :=
  .outOfRange ⟨"register allocator", .register, 255, 0, 254, line⟩

def taken (f : FunctionBuilder) : FunctionBuilder :=
  { f with nextFree := f.nextFree + 1, highWater := max f.highWater (f.nextFree + 1) }

theorem Disciplined.taken (h : f.Disciplined) (hlt : f.nextFree < maxRegisters) :
    f.taken.Disciplined := by
  have hchange : Change (fun _ _ => True) f f.taken := .take hlt
  exact h.change hchange

theorem Disciplined.full_of_not_lt (h : f.Disciplined) (hlt : ¬ f.nextFree < maxRegisters) :
    f.nextFree = maxRegisters := by
  have hnext := h.nextFree_le
  have hhigh := h.highWater_le
  omega

def pushed (f : FunctionBuilder) : FunctionBuilder :=
  { f.taken with temporaries := .ofNat f.nextFree :: f.temporaries }

theorem Disciplined.pushed (h : f.Disciplined) (hlt : f.nextFree < maxRegisters) :
    f.pushed.Disciplined :=
  { h.taken hlt with }

theorem Disciplined.openScope (h : f.Disciplined) (name : String) :
    (f.openScope name).Disciplined := by
  have hchange : Change (fun _ _ => True) f (f.openScope name) := .openScope name
  exact h.change hchange

theorem canDeclare_openScope (name : String) (hdistinct : (ds.map Declaration.name).Nodup) :
    (f.openScope name).CanDeclare ds :=
  ⟨hdistinct, { name }, f.scopes.stack, rfl, by simp⟩

theorem allocate_of_lt (h : f.nextFree < maxRegisters) :
    allocate f = .ok (.ofNat f.nextFree) f.taken := by
  rw [allocate, if_pos h, taken]

theorem allocate_of_full (h : f.nextFree = maxRegisters) :
    allocate f = .error (exhausted f.line) f := by
  rw [allocate, if_neg (by omega), exhausted, h]
  rfl

namespace Operation

variable {operation : Operation}

theorem attempt_handing {action : Build UInt8} {register : UInt8}
    (hrun : operation.run = some <$> action) (h : action f = .ok register f') :
    operation.attempt f = .ok (some register) f' := by
  simp [attempt, hrun, map_apply, h]

theorem attempt_plainly {α : Type} {action : Build α} {value : α}
    (hrun : operation.run = plainly action) (h : action f = .ok value f') :
    operation.attempt f = .ok none f' := by
  simp [attempt, hrun, plainly, map_apply, h]

theorem attempt_error {error : Error} (h : operation.run f = .error error f') :
    operation.attempt f = .error (operation, error) f' := by
  simp [attempt, h]

end Operation

theorem pushTemporary_apply (f : FunctionBuilder) :
    pushTemporary f =
      match allocate f with
      | .error error f => .error error f
      | .ok register f => .ok register { f with temporaries := register :: f.temporaries } := by
  unfold pushTemporary
  rw [bind_apply]
  cases allocate f <;> rfl

theorem popTemporary_of_free {register : UInt8} {older : List UInt8}
    (htemporaries : f.temporaries = register :: older)
    (hfree : free register { f with temporaries := older } = .ok () f') :
    popTemporary f = .ok register f' := by
  simp only [popTemporary, htemporaries, hfree]

theorem Disciplined.free_newest {g : FunctionBuilder} (h : f.Disciplined)
    (hlt : f.nextFree < maxRegisters) (hnext : g.nextFree = f.nextFree + 1)
    (hstack : g.scopes.stack = f.scopes.stack) :
    free (.ofNat f.nextFree) g = .ok () { g with nextFree := f.nextFree } := by
  have hregister : (UInt8.ofNat f.nextFree).toNat = f.nextFree := by
    rw [UInt8.toNat_ofNat']
    simp only [maxRegisters] at hlt
    omega
  have howned : g.scopes.isOwned (.ofNat f.nextFree) = false := by
    rw [← Bool.not_eq_true, Scopes.isOwned_iff_mem, hregister]
    have hsame : g.scopes.owned = f.scopes.owned := by
      rw [Scopes.owned, Scopes.owned, hstack]
    intro hmem
    exact Nat.lt_irrefl _ (h.below _ (hsame ▸ hmem))
  rw [free_of_newest howned (by rw [hregister, hnext]), hregister]

namespace Nesting

def Succeeds (s : Nesting ds) (f : FunctionBuilder) : Prop :=
  ∃ log, f.scopes.log <:+ log ∧ s.run f = .ok () (s.result log f)

def Exhausts (s : Nesting ds) (f : FunctionBuilder) : Prop :=
  ∃ operation f', s.run f = .error (operation, exhausted f.line) f' ∧
    operation.takesRegister = true ∧ f'.nextFree = maxRegisters ∧
    operation.run f' = .error (exhausted f.line) f'

def Ends (s : Nesting ds) (f : FunctionBuilder) : Prop :=
  (s.peak f.nextFree ≤ maxRegisters → s.Succeeds f) ∧
    (maxRegisters < s.peak f.nextFree → s.Exhausts f)

theorem ends_nothing (h : f.Disciplined) : nothing.Ends f := by
  constructor
  · intro _
    have hhigh : max f.highWater f.nextFree = f.highWater := Nat.max_eq_left h.nextFree_le
    refine ⟨f.scopes.log, List.suffix_rfl, ?_⟩
    rw [result_nil, peak, hhigh]
    rfl
  · intro hover
    have hnext := h.nextFree_le
    have hhigh := h.highWater_le
    rw [peak] at hover
    omega

theorem ends_seq {first second : List Declaration} {one : Nesting first}
    {other : Nesting second} (hone : one.Ends f)
    (hother : ∀ log, one.peak f.nextFree ≤ maxRegisters → other.Ends (one.result log f)) :
    (one.seq other).Ends f := by
  unfold Ends
  rw [peak, Nat.max_le]
  by_cases hfits : one.peak f.nextFree ≤ maxRegisters
  · obtain ⟨log, hlog, hrun⟩ := hone.1 hfits
    obtain ⟨hsucceeds, hexhausts⟩ := hother log hfits
    have hseq : (one.seq other).run f = other.run (one.result log f) :=
      Attempt.bind_of_ok hrun
    constructor
    · rintro ⟨-, hrest⟩
      obtain ⟨log', hlog', hrun'⟩ := hsucceeds hrest
      exact ⟨log', hlog.trans hlog', by rw [hseq, hrun', result_seq]⟩
    · intro hover
      obtain ⟨operation, f', hrun', hfull⟩ := hexhausts (by rw [result]; dsimp only; omega)
      exact ⟨operation, f', by rw [hseq, hrun']; rfl, hfull⟩
  · refine ⟨fun hall => absurd hall.1 hfits, fun _ => ?_⟩
    obtain ⟨operation, f', hrun, hfull⟩ := hone.2 (Nat.lt_of_not_le hfits)
    exact ⟨operation, f', Attempt.bind_of_error hrun, hfull⟩

theorem Ends.around {ds' : List Declaration} {s : Nesting ds'} {inside : Nesting ds}
    {closing : Operation} (h : inside.Ends f')
    (hpeak : s.peak f.nextFree = inside.peak f'.nextFree) (hline : f'.line = f.line)
    (hrun : s.run f = (inside.run >>= fun _ => closing.attempt >>= fun _ => pure ()) f')
    (hclose : ∀ log, f'.scopes.log <:+ log → inside.peak f'.nextFree ≤ maxRegisters →
      ∃ log', f.scopes.log <:+ log' ∧
        closing.attempt (inside.result log f') = .ok none (s.result log' f)) :
    s.Ends f := by
  unfold Ends
  rw [hpeak]
  constructor
  · intro hfits
    obtain ⟨log, hlog, hinside⟩ := h.1 hfits
    obtain ⟨log', hlog', hclosed⟩ := hclose log hlog hfits
    refine ⟨log', hlog', ?_⟩
    rw [hrun, Attempt.bind_of_ok hinside, Attempt.bind_of_ok hclosed]
    rfl
  · intro hover
    obtain ⟨operation, last, hinside, hfull⟩ := h.2 hover
    rw [hline] at hinside hfull
    exact ⟨operation, last, by rw [hrun, Attempt.bind_of_error hinside], hfull⟩

theorem ends_of_full {s : Nesting ds} {operation : Operation} {next : Option UInt8 → Attempt Unit}
    {action : Build UInt8} (hfull : f.nextFree = maxRegisters)
    (hover : f.nextFree < s.peak f.nextFree) (htakes : operation.takesRegister = true)
    (hrun : s.run f = (operation.attempt >>= next) f) (hhands : operation.run = some <$> action)
    (hfails : action f = .error (exhausted f.line) f) : s.Ends f := by
  constructor
  · intro hfits
    omega
  · intro _
    have hfailed : operation.run f = .error (exhausted f.line) f := by
      rw [hhands, map_apply, hfails]
    refine ⟨operation, f, ?_, htakes, hfull, hfailed⟩
    rw [hrun, Attempt.bind_of_error (Operation.attempt_error hfailed)]

theorem lt_peak (inside : Nesting []) (n : Nat) : n < inside.peak (n + 1) := by
  have hpeak := inside.width_le_peak (n + 1)
  omega

theorem max_taken (inside : Nesting []) (f : FunctionBuilder) :
    max (max f.highWater (f.nextFree + 1)) (inside.peak (f.nextFree + 1)) =
      max f.highWater (inside.peak (f.nextFree + 1)) := by
  have hpeak := inside.lt_peak f.nextFree
  omega

theorem ends_take {inside : Nesting []} (h : f.Disciplined)
    (hinside : f.nextFree < maxRegisters → inside.Ends f.taken) : (take inside).Ends f := by
  by_cases hlt : f.nextFree < maxRegisters
  · have hopened : Operation.allocate.attempt f = .ok (some (.ofNat f.nextFree)) f.taken :=
      Operation.attempt_handing rfl (allocate_of_lt hlt)
    refine (hinside hlt).around rfl rfl (Attempt.bind_of_ok hopened) ?_
    intro log hlog _
    refine ⟨log, hlog, ?_⟩
    rw [Operation.attempt_plainly rfl (h.free_newest hlt rfl (by simp [result_nil, taken])),
      result_nil, result_nil, taken, peak, max_taken]
  · have hfull := h.full_of_not_lt hlt
    exact ends_of_full hfull (inside.lt_peak f.nextFree) rfl rfl rfl (allocate_of_full hfull)

theorem ends_push {inside : Nesting []} (h : f.Disciplined)
    (hinside : f.nextFree < maxRegisters → inside.Ends f.pushed) : (push inside).Ends f := by
  by_cases hlt : f.nextFree < maxRegisters
  · have hopened : Operation.pushTemporary.attempt f = .ok (some (.ofNat f.nextFree)) f.pushed :=
      Operation.attempt_handing rfl (by rw [pushTemporary_apply, allocate_of_lt hlt]; rfl)
    refine (hinside hlt).around rfl rfl (Attempt.bind_of_ok hopened) ?_
    intro log hlog _
    refine ⟨log, hlog, ?_⟩
    rw [result_nil, result_nil, peak, ← max_taken]
    exact Operation.attempt_plainly rfl
      (popTemporary_of_free rfl (h.free_newest hlt rfl rfl))
  · have hfull := h.full_of_not_lt hlt
    exact ends_of_full hfull (inside.lt_peak f.nextFree) rfl rfl rfl
      (by rw [pushTemporary_apply, allocate_of_full hfull])

theorem closeScope_result {body : Nesting ds} (name : String) (log : List LocalRange)
    (hfits : body.peak f.nextFree ≤ maxRegisters) :
    ∃ ranges, closeScope (body.result log (f.openScope name)) = .ok ()
      { f with
        highWater := max f.highWater (body.peak f.nextFree)
        scopes := ⟨f.scopes.stack, ranges ++ log⟩ } := by
  have hwidth := body.width_le_peak f.nextFree
  obtain ⟨hnone, hsome⟩ :=
    Declaration.lowest_locals (.ofNat f.pc) (Nat.le_trans hwidth hfits)
  have hstack : (body.result log (f.openScope name)).scopes.stack =
      { name, locals := Declaration.locals (.ofNat f.pc) f.nextFree ds } :: f.scopes.stack := rfl
  refine ⟨(Declaration.locals (.ofNat f.pc) f.nextFree ds).map (Local.range (.ofNat f.pc)), ?_⟩
  rw [closeScope_apply hstack]
  dsimp only
  cases hlowest : (((Declaration.locals (.ofNat f.pc) f.nextFree ds).filter
      (!·.isAlias)).map Local.register).min? with
  | none =>
    rw [result, hnone hlowest]
    rfl
  | some lowest =>
    dsimp only
    rw [hsome lowest hlowest]
    rfl

theorem ends_scope {name : String} {body : Nesting ds}
    {distinct : (ds.map Declaration.name).Nodup} (hbody : body.Ends (f.openScope name)) :
    (scope name body distinct).Ends f := by
  have hopened : (Operation.openScope name).attempt f = .ok none (f.openScope name) := rfl
  refine hbody.around rfl rfl (Attempt.bind_of_ok hopened) ?_
  intro log hlog hfits
  obtain ⟨ranges, hclosed⟩ := closeScope_result (f := f) name log hfits
  refine ⟨ranges ++ log, hlog.trans (List.suffix_append _ _), ?_⟩
  rw [Operation.attempt_plainly rfl hclosed, result_nil]
  rfl

theorem ends_declare {d : Declaration} (h : f.Disciplined) (hcan : f.CanDeclare [d]) :
    (declare d).Ends f := by
  have hfresh := hcan.checkFresh f.line
  cases d with
  | own name =>
    rw [Declaration.name] at hfresh
    by_cases hlt : f.nextFree < maxRegisters
    · have hbound : bindLocal name f = .ok (.ofNat f.nextFree)
          ((declare (.own name)).result f.scopes.log f) := by
        rw [bindLocal, bindName_apply, hfresh, allocate_of_lt hlt]
        dsimp only
        rw [Scopes.add_eq_gain]
        rfl
      refine ⟨fun _ => ⟨f.scopes.log, List.suffix_rfl, ?_⟩, fun hover => ?_⟩
      · exact Attempt.bind_of_ok (Operation.attempt_handing rfl hbound)
      · exact absurd hover (Nat.not_lt.mpr hlt)
    · have hfull := h.full_of_not_lt hlt
      refine ends_of_full hfull (Nat.lt_succ_self _) rfl rfl rfl ?_
      rw [bindLocal, bindName_apply, hfresh, allocate_of_full hfull]
  | label name register =>
    have hnamed : nameRegister name register f = .ok ()
        ((declare (.label name register)).result f.scopes.log f) := by
      have hhigh : max f.highWater f.nextFree = f.highWater := Nat.max_eq_left h.nextFree_le
      rw [Declaration.name] at hfresh
      rw [nameRegister_apply, hfresh]
      dsimp only
      rw [Scopes.add_eq_gain, result, peak, Declaration.size, Nat.add_zero, hhigh]
      rfl
    refine ⟨fun _ => ⟨f.scopes.log, List.suffix_rfl, ?_⟩, fun hover => ?_⟩
    · exact Attempt.bind_of_ok (Operation.attempt_plainly rfl hnamed)
    · exact absurd hover (Nat.not_lt.mpr (Nat.le_trans h.nextFree_le h.highWater_le))

theorem ends (s : Nesting ds) (h : f.Disciplined) (hcan : f.CanDeclare ds) : s.Ends f := by
  induction s generalizing f with
  | nothing => exact ends_nothing h
  | seq one other ihone ihother =>
    refine ends_seq (ihone h hcan.left) ?_
    intro log hfits
    exact ihother (h.nesting hcan.stack_ne_nil one hfits log) (hcan.right one log)
  | take inside ih =>
    exact ends_take h fun hlt => ih (h.taken hlt) (canDeclare_nil hcan.stack_ne_nil)
  | push inside ih =>
    exact ends_push h fun hlt => ih (h.pushed hlt) (canDeclare_nil hcan.stack_ne_nil)
  | scope name body distinct ih =>
    exact ends_scope (ih (h.openScope name) (canDeclare_openScope name distinct))
  | declare d => exact ends_declare h hcan

end Nesting

variable {permits : FunctionBuilder → Operation → Prop}

/-- Whatever was done to a function before, a nesting in it goes through if its peak allows
it, raises the next free register by what it declares, and leaves nothing else behind but the
high-water mark and the log. Above the peak, what fails first asks for a register where all
are taken. -/
theorem Reachable.nesting_neutral (h : f.Reachable permits) (hopen : f.scopes.stack ≠ []) :
    (∀ s : Nesting [],
      (s.peak f.nextFree ≤ 255 → ∃ log, f.scopes.log <:+ log ∧
        s.run f = .ok () { f with
          highWater := max f.highWater (s.peak f.nextFree)
          scopes := ⟨f.scopes.stack, log⟩ }) ∧
      (255 < s.peak f.nextFree → s.Exhausts f)) ∧
    ∀ ds, f.CanDeclare ds → ∀ s : Nesting ds,
      (s.peak f.nextFree ≤ 255 → ∃ log, f.scopes.log <:+ log ∧
        s.run f = .ok () { f with
          nextFree := f.nextFree + Declaration.width ds
          highWater := max f.highWater (s.peak f.nextFree)
          scopes := ⟨Scopes.gain (Declaration.locals (.ofNat f.pc) f.nextFree ds)
            f.scopes.stack, log⟩ }) ∧
      (255 < s.peak f.nextFree → s.Exhausts f) := by
  refine ⟨?_, fun ds hcan s => s.ends h.disciplined hcan⟩
  intro s
  obtain ⟨hsucceeds, hexhausts⟩ := s.ends h.disciplined (canDeclare_nil hopen)
  refine ⟨?_, hexhausts⟩
  intro hfits
  obtain ⟨log, hlog, hrun⟩ := hsucceeds hfits
  rw [Nesting.result_nil] at hrun
  exact ⟨log, hlog, hrun⟩

/-- A register around a temporary and a scope, which binds locals with a register between. -/
def tangle : Nesting [] :=
  .take (.seq (.push .nothing) (.scope "inner"
    (.seq (.declare (.own "a")) (.seq (.declare (.label "b" 5))
      (.seq (.take .nothing) (.declare (.own "c"))))) (by decide)))

def tower : Nat → Nesting []
  | 0 => .nothing
  | height + 1 => .take (tower height)

theorem peak_tower (height n : Nat) : (tower height).peak n = n + height := by
  induction height generalizing n with
  | zero => rfl
  | succ height ih =>
    rw [tower, Nesting.peak, ih]
    omega

theorem Reachable.nesting_neutral_contested :
    contested.Reachable (fun _ _ => True) ∧ contested.nextFree = 4 ∧
      (∃ log, tangle.run contested = .ok ()
        { contested with highWater := 7, scopes := ⟨contested.scopes.stack, log⟩ }) ∧
      (∃ f', (tower 251).run contested = .ok () f' ∧ f'.nextFree = 4 ∧ f'.highWater = 255) ∧
      (tower 252).Exhausts contested ∧
      ∃ f', (Nesting.seq (.declare (.own "p")) (.declare (.label "q" 9))).run contested =
        .ok () f' ∧ f'.nextFree = 5 := by
  have hreachable : contested.Reachable (fun _ _ => True) :=
    ⟨_, .start "f" none 1, runs_foldl _ (fun _ _ _ => trivial) _⟩
  have hnext : contested.nextFree = 4 := rfl
  obtain ⟨hneutral, hdeclaring⟩ := hreachable.nesting_neutral (by decide)
  obtain ⟨log, -, htangle⟩ := (hneutral tangle).1 (by decide)
  have hfits : (tower 251).peak contested.nextFree = 255 := by rw [peak_tower, hnext]
  have hover : (tower 252).peak contested.nextFree = 256 := by rw [peak_tower, hnext]
  obtain ⟨log', -, htower⟩ := (hneutral (tower 251)).1 (Nat.le_of_eq hfits)
  obtain ⟨log'', -, hdeclared⟩ := (hdeclaring [.own "p", .label "q" 9]
    ⟨by decide, _, _, rfl, by decide⟩
    (.seq (.declare (.own "p")) (.declare (.label "q" 9)))).1 (by decide)
  refine ⟨hreachable, hnext, ⟨log, htangle⟩, ⟨_, htower, rfl, ?_⟩,
    (hneutral (tower 252)).2 (by rw [hover]; decide), ⟨_, hdeclared, rfl⟩⟩
  dsimp only
  rw [hfits]
  decide

end FunctionBuilder

end RegisterCode
