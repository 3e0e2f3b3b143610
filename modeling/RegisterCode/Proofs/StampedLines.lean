import RegisterCode.Proofs.NestingSteps

/-! The lines that lowering leaves on instructions. Only a statement whose place is known
moves the line, so all that an expression leaves is on the line of its statement, and a
function goes on at the line of the code around it. -/
namespace RegisterCode

open Action

def Span.noted (span : Span) : List UInt32 :=
  if span.isKnown then [span.line] else []

mutual

/-- The lines on which the statements of a function start, in the order in which they are
visited and as far as they are known. Functions nested in it have lines of their own. -/
def Stmt.lines : Stmt → List UInt32
  | ⟨form, span⟩ => span.noted ++ form.lines

def StmtForm.lines : StmtForm → List UInt32
  | .declare .. | .expr _ | .function .. | .ret _ | .breakLoop | .continueLoop | .classDecl _ => []
  | .branch _ body none | .whileLoop _ body | .block body | .tryBlock body => Stmt.listLines body
  | .branch _ body (some otherwise) => Stmt.listLines body ++ Stmt.listLines otherwise

def Stmt.listLines : List Stmt → List UInt32
  | [] => []
  | stmt :: rest => stmt.lines ++ Stmt.listLines rest

end

mutual

/-- Whether an expression leaves an instruction, whatever the names in it stand for. A
constant does only if it is put into a register. -/
def Expr.leaves (placed : Bool) : Expr → Bool
  | ⟨form, _, _, _⟩ => form.leaves placed

def ExprForm.leaves (placed : Bool) : ExprForm → Bool
  | .nil | .boolean _ | .integer _ | .number _ | .string _ => placed
  | .name _ | .tuple _ | .object _ => false
  | .unary .. | .binary .. | .logical .. | .call .. | .function _ => true
  | .assign _ value => value.leaves true

end

mutual

/-- Lines that a statement leaves instructions on, if it is reached at `line`. Nothing is
left by what stands behind a condition that is literally false. -/
def Stmt.marks (line : UInt32) : Stmt → List UInt32
  | ⟨form, span⟩ => form.marks (span.noted.getLastD line)

def StmtForm.marks (line : UInt32) : StmtForm → List UInt32
  | .declare _ none | .function .. | .ret _ | .breakLoop | .continueLoop => [line]
  | .declare _ (some value) => bif value.leaves true then [line] else []
  | .expr value => bif value.leaves false then [line] else []
  | .branch condition body none =>
    bif condition.isFalse then [] else line :: Stmt.listMarks line body
  | .branch condition body (some otherwise) =>
    (bif condition.isFalse then [] else line :: Stmt.listMarks line body) ++
      Stmt.listMarks ((Stmt.listLines body).getLastD line) otherwise
  | .whileLoop _ body => line :: Stmt.listMarks line body
  | .block body => Stmt.listMarks line body
  | .classDecl _ | .tryBlock _ => []

def Stmt.listMarks (line : UInt32) : List Stmt → List UInt32
  | [] => []
  | stmt :: rest => stmt.marks line ++ Stmt.listMarks (stmt.lines.getLastD line) rest

end

structure FunctionSite where
  literal : FunctionLiteral
  /-- The line of the literal itself. -/
  line : UInt32
  /-- The line that the code around the literal is on. -/
  entryLine : UInt32

mutual

/-- The function literals of an expression that is reached at `entry`, without those that
are nested in them. -/
def Expr.sites (entry : UInt32) : Expr → List FunctionSite
  | ⟨form, span, _, _⟩ => form.sites span.line entry

def ExprForm.sites (line entry : UInt32) : ExprForm → List FunctionSite
  | .nil | .boolean _ | .integer _ | .number _ | .string _ | .name _ => []
  | .unary _ operand => operand.sites entry
  | .binary _ left right | .logical _ left right => left.sites entry ++ right.sites entry
  | .assign _ value => value.sites entry
  | .call callee args => callee.sites entry ++ Expr.listSites entry args
  | .function f => [⟨f, line, entry⟩]
  | .tuple items => Expr.listSites entry items
  | .object fields => Expr.fieldSites entry fields

def Expr.listSites (entry : UInt32) : List Expr → List FunctionSite
  | [] => []
  | e :: rest => e.sites entry ++ Expr.listSites entry rest

def Expr.fieldSites (entry : UInt32) : List (String × Expr) → List FunctionSite
  | [] => []
  | (_, e) :: rest => e.sites entry ++ Expr.fieldSites entry rest

end

mutual

def Stmt.sites (entry : UInt32) : Stmt → List FunctionSite
  | ⟨form, span⟩ => form.sites span.line (span.noted.getLastD entry)

def StmtForm.sites (line entry : UInt32) : StmtForm → List FunctionSite
  | .declare _ none | .ret none | .breakLoop | .continueLoop | .classDecl _ => []
  | .declare _ (some value) | .expr value | .ret (some value) => value.sites entry
  | .function _ f => [⟨f, line, entry⟩]
  | .branch condition body none | .whileLoop condition body =>
    condition.sites entry ++ Stmt.listSites entry body
  | .branch condition body (some otherwise) =>
    condition.sites entry ++ (Stmt.listSites entry body ++
      Stmt.listSites ((Stmt.listLines body).getLastD entry) otherwise)
  | .block body | .tryBlock body => Stmt.listSites entry body

def Stmt.listSites (entry : UInt32) : List Stmt → List FunctionSite
  | [] => []
  | stmt :: rest => stmt.sites entry ++ Stmt.listSites (stmt.lines.getLastD entry) rest

end

/-- The prototype has the range of the literal, its code has the lines of the statements,
and the same is true of the functions nested in it. -/
inductive FunctionSite.Yields : FunctionSite → Prototype → Prop
  | intro {site : FunctionSite} {p : Prototype} (firstLine : p.firstLine = site.line)
    (lastLine : p.lastLine = site.literal.lastLine site.line)
    (stamped : ∀ line ∈ p.lines, line = site.entryLine ∨ line ∈ Stmt.listLines site.literal.body)
    (marked : ∀ line ∈ Stmt.listMarks site.entryLine site.literal.body, line ∈ p.lines)
    (children : List.Forall₂ Yields (Stmt.listSites site.entryLine site.literal.body) p.children) :
    Yields site p

/-- What lowering a construct leaves behind, in terms of the line that it is reached at. -/
structure Trail where
  /-- The lines that were moved to, in order. -/
  noted : List UInt32
  /-- Lines that have instructions on them. -/
  marks : UInt32 → List UInt32
  sites : UInt32 → List FunctionSite

namespace Trail

def append (t u : Trail) : Trail where
  noted := t.noted ++ u.noted
  marks line := t.marks line ++ u.marks (t.noted.getLastD line)
  sites line := t.sites line ++ u.sites (t.noted.getLastD line)

def still (leaves : Bool) (sites : UInt32 → List FunctionSite) : Trail where
  noted := []
  marks line := bif leaves then [line] else []
  sites

def plain (leaves : Bool) : Trail :=
  still leaves fun _ => []

theorem append_plain (t : Trail) : t.append (plain false) = t := by
  simp [append, plain, still]

end Trail

theorem getLastD_append (noted more : List UInt32) (line : UInt32) :
    (noted ++ more).getLastD line = more.getLastD (noted.getLastD line) := by
  simp only [List.getLastD_eq_getLast?, List.getLast?_append]
  cases more.getLast? <;> rfl

namespace FunctionBuilder

variable {t u : Trail} {f f' f'' : FunctionBuilder} {i : Instruction}

/-- The function got code with these lines, took in these functions, and goes on at the
last of the lines. -/
structure Stamps (t : Trail) (f f' : FunctionBuilder) : Prop where
  lines : ∃ added, f'.code.lines = f.code.lines ++ added ∧
    (∀ line ∈ added, line ∈ f.line :: t.noted) ∧ ∀ line ∈ t.marks f.line, line ∈ added
  line : f'.line = t.noted.getLastD f.line
  children : ∃ added, f'.children.toList = f.children.toList ++ added ∧
    List.Forall₂ FunctionSite.Yields (t.sites f.line) added
  firstLine : f'.firstLine = f.firstLine
  sections : f'.code.sections = f.code.sections

theorem Stamps.trans (h : f.Stamps t f') (h' : f'.Stamps u f'') : f.Stamps (t.append u) f'' := by
  obtain ⟨added, hadded, honly, hmarks⟩ := h.lines
  obtain ⟨added', hadded', honly', hmarks'⟩ := h'.lines
  obtain ⟨nested, hnested, hyields⟩ := h.children
  obtain ⟨nested', hnested', hyields'⟩ := h'.children
  rw [h.line] at honly' hmarks' hyields'
  refine ⟨⟨added ++ added', ?_, ?_, ?_⟩, ?_, ⟨nested ++ nested', ?_, ?_⟩,
    h'.firstLine.trans h.firstLine, h'.sections.trans h.sections⟩
  · rw [hadded', hadded, List.append_assoc]
  · -- the second part goes on at a line of the first
    intro line hline
    rw [Trail.append, ← List.cons_append, List.mem_append]
    rcases List.mem_append.mp hline with hline | hline
    · exact .inl (honly line hline)
    · rcases List.mem_cons.mp (honly' line hline) with rfl | hline
      · exact .inl List.getLastD_mem_cons
      · exact .inr hline
  · intro line hline
    rcases List.mem_append.mp hline with hline | hline
    · exact List.mem_append_left _ (hmarks line hline)
    · exact List.mem_append_right _ (hmarks' line hline)
  · rw [h'.line, h.line, Trail.append, getLastD_append]
  · rw [hnested', hnested, List.append_assoc]
  · exact List.rel_append hyields hyields'

theorem Stamps.weaken (h : f.Stamps t f') {marks : UInt32 → List UInt32}
    (hmarks : ∀ line, marks line ⊆ t.marks line) : f.Stamps { t with marks } f' := by
  obtain ⟨added, hadded, honly, hall⟩ := h.lines
  exact ⟨⟨added, hadded, honly, fun line hline => hall line (hmarks f.line hline)⟩, h.line,
    h.children, h.firstLine, h.sections⟩

theorem stamps_plain {leaves : Bool} {added : List UInt32}
    (hlines : f'.code.lines = f.code.lines ++ added) (honly : ∀ line ∈ added, line = f.line)
    (hleaves : leaves = true → f.line ∈ added) (hline : f'.line = f.line)
    (hchildren : f'.children = f.children) (hfirst : f'.firstLine = f.firstLine)
    (hsections : f'.code.sections = f.code.sections) : f.Stamps (.plain leaves) f' := by
  refine ⟨⟨added, hlines, fun line hadded => List.mem_singleton.mpr (honly line hadded), ?_⟩, hline,
    ⟨[], by rw [hchildren, List.append_nil], .nil⟩, hfirst, hsections⟩
  intro line hmarked
  cases leaves with
  | false => cases hmarked
  | true =>
    obtain rfl := List.mem_singleton.mp hmarked
    exact hleaves rfl

theorem stamps_same (hcode : f'.code = f.code) (hchildren : f'.children = f.children)
    (hfirst : f'.firstLine = f.firstLine) : f.Stamps (.plain false) f' :=
  stamps_plain (by rw [hcode, List.append_nil]) (by simp) (by simp) (by rw [line, hcode, line])
    hchildren hfirst (by rw [hcode])

theorem Stamps.withLoops (h : f.Stamps t f') (loops : Loops) : f.Stamps t { f' with loops } :=
  ⟨h.lines, h.line, h.children, h.firstLine, h.sections⟩

theorem stamps_placed {code : List Instruction} (hne : code ≠ [])
    (h : ∀ i ∈ code, i.line = f.line) : f.Stamps (.plain true) (f.placed code) := by
  have hlines : (f.placed code).code.lines = f.code.lines ++ code.map Instruction.line := by
    change (f.placed code).listing.map Instruction.line = f.listing.map Instruction.line ++ _
    rw [listing_placed, List.map_append]
  refine stamps_plain hlines ?_ ?_ rfl rfl rfl rfl
  · intro line hline
    obtain ⟨i, hi, rfl⟩ := List.mem_map.mp hline
    exact h i hi
  · intro _
    obtain ⟨i, hi⟩ := List.exists_mem_of_ne_nil code hne
    exact List.mem_map.mpr ⟨i, hi, h i hi⟩

theorem Captures.stamps (h : f.Captures f') : f.Stamps (.plain false) f' := by
  obtain ⟨captured, rfl⟩ := h
  exact stamps_same rfl rfl rfl

theorem Aims.stamps {goes : Nat → Nat → Prop} (h : Aims goes f f') :
    f.Stamps (.plain false) f' := by
  have hlines : f'.listing.map Instruction.line = f.listing.map Instruction.line := by
    apply List.ext_getElem?
    intro k
    rw [List.getElem?_map, List.getElem?_map]
    rcases h.code k with hkept | ⟨jump, target, -, ⟨hat, -⟩, haimed⟩
    · rw [hkept]
    · rw [hat, haimed]
      rfl
  obtain ⟨instructions, rfl⟩ := h.only
  exact stamps_plain (hlines.trans (List.append_nil _).symm) (by simp) (by simp) rfl rfl rfl rfl

def Stamping {α : Type} (leaves : Bool) (action : Build α) : Prop :=
  ∀ f, action.Promises f fun _ f' => f.Stamps (.plain leaves) f'

theorem stamping_modify {leaves : Bool} {change : FunctionBuilder → FunctionBuilder}
    (h : ∀ f, Stamps (.plain leaves) f (change f)) :
    Stamping leaves (modify change : Build PUnit) :=
  fun f => promises_of_eq_ok rfl (h f)

theorem stamping_allocate : Stamping false allocate := by
  refine fun f => ⟨fun hrun => ?_⟩
  obtain ⟨-, -, rfl⟩ := (allocate_ensures f).of_ok hrun
  exact stamps_same rfl rfl rfl

theorem stamping_free (register : UInt8) : Stamping false (free register) := by
  refine fun f => ⟨fun hrun => ?_⟩
  unfold free at hrun
  split at hrun
  · cases hrun
    exact stamps_same rfl rfl rfl
  split at hrun
  · cases hrun
  split at hrun
  · cases hrun
  · cases hrun
    exact stamps_same rfl rfl rfl

theorem stamping_emit (i : Instruction) : Stamping true (emit i) := by
  intro f
  rcases emit_cases i f with ⟨_, -, hrun⟩ | ⟨error, -, hrun⟩
  · exact promises_of_eq_ok hrun (stamps_placed (by simp) (by simp [stamped]))
  · exact promises_of_eq_error hrun

theorem stamping_jump : Stamping true jump :=
  fun f => promises_of_eq_ok (jump_eq f) (stamps_placed (by simp) (by simp [stamped]))

theorem stamping_jumpTo (target : Nat) : Stamping true (jumpTo target) := by
  refine fun f => ⟨fun hrun => ?_⟩
  rw [jumpTo_eq_emit] at hrun
  exact (stamping_emit _ f).of_ok hrun

theorem stamping_aimHere (index : Nat) : Stamping false (aimHere index) := by
  refine fun f => ⟨fun hrun => ?_⟩
  rw [aimHere_eq_aim] at hrun
  rcases aim_cases index f.pc f with ⟨jump, hat, haimed⟩ | ⟨error, herror, -⟩
  · rw [haimed] at hrun
    cases hrun
    exact (aims_replaced hat).stamps
  · simp [herror] at hrun

theorem stamping_loadConstant (register : UInt8) (slot : Nat) :
    Stamping true (loadConstant register slot) := by
  intro f
  by_cases hsmall : slot ≤ Instruction.maxBx
  · refine ⟨fun hrun => ?_⟩
    rw [loadConstant_eq_emit hsmall] at hrun
    exact (stamping_emit _ f).of_ok hrun
  by_cases hlarge : slot ≤ Instruction.maxAx
  · rcases loadConstant_wide (Nat.not_le.mp hsmall) hlarge register f with
      ⟨-, hrun⟩ | ⟨-, error, hrun⟩
    · refine promises_of_eq_ok hrun (stamps_placed ?_ ?_)
      · simp [constantLoad, hsmall]
      · simp [constantLoad, hsmall, stamped]
    · exact promises_of_eq_error hrun
  · obtain ⟨error, hrun⟩ := loadConstant_eq_error (Nat.not_le.mp hlarge) register f
    exact promises_of_eq_error hrun

theorem stamping_intern (c : Constant) : Stamping false (intern c) :=
  fun f => promises_of_eq_ok (intern_apply c f) (stamps_same rfl rfl rfl)

theorem stamping_bindName (name : String) (startPc : UInt32) :
    Stamping false (bindName name startPc) := by
  refine fun f => ⟨fun hrun => ?_⟩
  rw [bindName_apply] at hrun
  split at hrun
  · cases hrun
  split at hrun
  · cases hrun
  · next register g hallocate =>
    cases hrun
    have htaken := (stamping_allocate f).of_ok hallocate
    exact ⟨htaken.lines, htaken.line, htaken.children, htaken.firstLine, htaken.sections⟩

theorem stamping_bindLocal (name : String) : Stamping false (bindLocal name) := by
  refine fun f => ⟨fun hrun => ?_⟩
  exact (stamping_bindName name _ f).of_ok hrun

theorem stamping_bindParameter (name : String) : Stamping false (bindParameter name) := by
  refine fun f => ⟨fun hrun => ?_⟩
  obtain ⟨_, _, hget, hrun⟩ := bind_eq_ok.mp hrun
  obtain ⟨rfl, rfl⟩ := get_eq_ok.mp hget
  obtain ⟨register, f₁, hbind, hrun⟩ := bind_eq_ok.mp hrun
  cases hrun
  have hbound := (stamping_bindName name _ f).of_ok hbind
  exact ⟨hbound.lines, hbound.line, hbound.children, hbound.firstLine, hbound.sections⟩

theorem stamping_closeScope : Stamping false closeScope := by
  intro f
  cases hstack : f.scopes.stack with
  | nil => exact promises_of_eq_error (closeScope_eq_error hstack)
  | cons scope outer => exact promises_of_eq_ok (closeScope_apply hstack) (stamps_same rfl rfl rfl)

theorem stamping_breakLoop : Stamping true breakLoop := by
  intro f
  rcases breakLoop_cases f with ⟨-, error, hrun⟩ | ⟨loop, outer, -, hrun⟩
  · exact promises_of_eq_error hrun
  · exact promises_of_eq_ok hrun ((stamps_placed (by simp) (by simp [stamped])).withLoops _)

theorem stamping_continueLoop : Stamping true continueLoop := by
  intro f
  rcases continueLoop_cases f with ⟨-, error, hrun⟩ | ⟨loop, outer, -, hopen⟩
  · exact promises_of_eq_error hrun
  rcases hopen with ⟨-, hrun⟩ | ⟨target, -, hrun | ⟨error, hrun⟩⟩
  · exact promises_of_eq_ok hrun ((stamps_placed (by simp) (by simp [stamped])).withLoops _)
  · exact promises_of_eq_ok hrun (stamps_placed (by simp) (by simp [jumpBack, stamped]))
  · exact promises_of_eq_error hrun

theorem stamping_closeLoop : Stamping false closeLoop := by
  intro f
  cases hstack : f.loops.stack with
  | nil => exact promises_of_eq_error (closeLoop_eq_error hstack)
  | cons loop outer =>
    rcases closeLoop_cases hstack with ⟨f', hrun, haims, -⟩ | ⟨error, f', hrun, -⟩
    · have hclosed : f.Stamps (.plain false) { f with loops := ⟨outer⟩ } := stamps_same rfl rfl rfl
      exact promises_of_eq_ok hrun (hclosed.trans haims.stamps)
    · exact promises_of_eq_error hrun

end FunctionBuilder

structure ChunkBuilder.Stamps (t : Trail) (b b' : ChunkBuilder) : Prop where
  current : b.current.Stamps t b'.current
  around : b.Around b'
  map : b'.map = none

theorem ChunkBuilder.Stamps.trans {t u : Trail} {b b' b'' : ChunkBuilder} (h : b.Stamps t b')
    (h' : b'.Stamps u b'') : b.Stamps (t.append u) b'' :=
  ⟨h.current.trans h'.current, h.around.trans h'.around, h'.map⟩

namespace Lower
open ChunkBuilder

variable {α β : Type} {t u : Trail} {leaves leaves' : Bool}
  {sites more : UInt32 → List FunctionSite}

def Stamps (t : Trail) (action : Lower α) : Prop :=
  ∀ b, b.map = none → action.Promises b fun _ b' => b.Stamps t b'

theorem Stamps.bind {action : Lower α} {next : α → Lower β} (h : Stamps t action)
    (hnext : ∀ value, Stamps u (next value)) : Stamps (t.append u) (action >>= next) := by
  intro b hmap
  apply (h b hmap).bind
  intro value b₁ hfirst
  exact (hnext value b₁ hfirst.map).mono fun _ _ hrest => hfirst.trans hrest

theorem Stamps.weaken {action : Lower α} (h : Stamps t action) {marks : UInt32 → List UInt32}
    (hmarks : ∀ line, marks line ⊆ t.marks line) : Stamps { t with marks } action :=
  fun b hmap => (h b hmap).mono fun _ _ hstamps =>
    ⟨hstamps.current.weaken hmarks, hstamps.around, hstamps.map⟩

theorem Stamps.behind {action : Lower α} {next : α → Lower β} (h : Stamps (.plain false) action)
    (hnext : ∀ value, Stamps t (next value)) : Stamps t (action >>= next) :=
  h.bind hnext

theorem Stamps.closed {action : Lower α} {next : α → Lower β} (h : Stamps t action)
    (hnext : ∀ value, Stamps (.plain false) (next value)) : Stamps t (action >>= next) :=
  t.append_plain ▸ h.bind hnext

theorem Stamps.bind_still {action : Lower α} {next : α → Lower β}
    (h : Stamps (.still leaves sites) action)
    (hnext : ∀ value, Stamps (.still leaves' more) (next value)) :
    Stamps (.still (leaves || leaves') fun line => sites line ++ more line) (action >>= next) := by
  refine (h.bind hnext).weaken fun line => ?_
  cases leaves <;> cases leaves' <;> simp [Trail.append, Trail.still]

theorem Stamps.before {action : Lower α} {next : α → Lower β} (h : Stamps (.plain leaves) action)
    (hnext : ∀ value, Stamps (.still leaves' sites) (next value)) :
    Stamps (.still (leaves || leaves') sites) (action >>= next) :=
  h.bind_still hnext

theorem Stamps.followed {action : Lower α} {next : α → Lower β}
    (h : Stamps (.still leaves sites) action)
    (hnext : ∀ value, Stamps (.plain leaves') (next value)) :
    Stamps (.still (leaves || leaves') sites) (action >>= next) := by
  have hboth := h.bind_still hnext
  simpa only [List.append_nil] using hboth

theorem Stamps.finished {action : Lower α} {next : α → Lower β}
    (h : Stamps (.still leaves sites) action)
    (hnext : ∀ value, Stamps (.plain true) (next value)) :
    Stamps (.still true sites) (action >>= next) :=
  Bool.or_true leaves ▸ h.followed hnext

theorem Stamps.quiet {action : Lower α} (h : Stamps (.still leaves sites) action) :
    Stamps (.still false sites) action :=
  h.weaken fun _ => List.nil_subset _

theorem Stamps.sure {action : Lower α} (h : Stamps (.still true sites) action) :
    Stamps (.still leaves sites) action := by
  cases leaves with
  | true => exact h
  | false => exact h.quiet

theorem stamps_pure (value : α) : Stamps (.plain false) (pure value : Lower α) :=
  fun _ hmap => promises_pure ⟨FunctionBuilder.stamps_same rfl rfl rfl, .of_eq rfl rfl, hmap⟩

theorem stamps_throw (error : Error) : Stamps t (throw error : Lower α) :=
  fun _ _ => promises_throw

theorem stamps_get_bind {next : ChunkBuilder → Lower α} (h : ∀ b, Stamps t (next b)) :
    Stamps t (get >>= next) :=
  fun b hmap => promises_get_bind (h b b hmap)

theorem stamps_onCurrent {action : Build α} (h : FunctionBuilder.Stamping leaves action) :
    Stamps (.plain leaves) (onCurrent action) := by
  refine fun b hmap => ⟨fun hrun => ?_⟩
  obtain ⟨current, haction, rfl⟩ := onCurrent_eq_ok.mp hrun
  exact ⟨(h b.current).of_ok haction, .of_eq rfl rfl, hmap⟩

theorem stamps_resolve (name : String) : Stamps (.plain false) (resolve name) := by
  refine fun b hmap => ⟨fun hrun => ?_⟩
  obtain ⟨-, current, enclosing, ⟨hcurrent, henclosing⟩, rfl⟩ := (resolve_ensures name b).of_ok hrun
  exact ⟨hcurrent.stamps, ⟨rfl, henclosing⟩, hmap⟩

theorem stamps_locateKnown (span : Span) :
    Stamps ⟨span.noted, fun _ => [], fun _ => []⟩ (locateKnown span) := by
  unfold locateKnown Span.noted
  split
  · refine fun b hmap => promises_of_eq_ok rfl ?_
    have hlocate : locate span b = { b with current := b.current.setLine span.line } := by
      unfold locate
      rw [hmap]
    rw [hlocate]
    exact ⟨⟨⟨[], (List.append_nil _).symm, by simp, by simp⟩, rfl,
      ⟨[], (List.append_nil _).symm, .nil⟩, rfl, rfl⟩, .of_eq rfl rfl, hmap⟩
  · exact stamps_pure ()

theorem stamps_allocate : Stamps (.plain false) allocate :=
  stamps_onCurrent FunctionBuilder.stamping_allocate

theorem stamps_emit (op : Opcode) (x y z : Int) : Stamps (.plain true) (emit op x y z) :=
  (stamps_onCurrent (FunctionBuilder.stamping_emit _)).before fun _ => stamps_pure _

theorem stamps_jump : Stamps (.plain true) jump :=
  stamps_onCurrent FunctionBuilder.stamping_jump

theorem stamps_aimHere (index : Nat) : Stamps (.plain false) (aimHere index) :=
  stamps_onCurrent (FunctionBuilder.stamping_aimHere index)

theorem stamps_loadConstant (target : UInt8) (slot : Nat) :
    Stamps (.plain true) (loadConstant target slot) :=
  (stamps_onCurrent (FunctionBuilder.stamping_loadConstant target slot)).before fun _ =>
    stamps_pure _

theorem stamps_free (operand : Operand) : Stamps (.plain false) (free operand) := by
  cases operand with
  | register index => exact stamps_onCurrent (FunctionBuilder.stamping_free index)
  | _ => exact stamps_pure _

theorem stamps_place (dest : Option UInt8) : Stamps (.plain false) (place dest) := by
  cases dest with
  | some target => exact stamps_pure target
  | none => exact stamps_allocate

theorem stamps_toKey (name : String) : Stamps (.plain false) (toKey name) := by
  rw [toKey_eq]
  refine (stamps_onCurrent (FunctionBuilder.stamping_intern _)).before fun slot => ?_
  cases h : (Operand.constant slot).short? with
  | some field =>
    rw [toShort_of_some h]
    exact stamps_pure _
  | none =>
    rw [toShort_constant h]
    exact (stamps_allocate.before fun _ => (stamps_loadConstant _ _).before fun _ =>
      stamps_pure _).quiet

theorem stamps_releasing {use : Lower Unit} (h : Stamps t use) (operand : Operand) :
    Stamps t (releasing operand use) :=
  fun b hmap => ⟨fun hrun => ((h.closed fun _ => stamps_free operand) b hmap).of_ok
    (releasing_eq_ok_iff.mp hrun)⟩

theorem stamps_loadGlobal (name : String) (target : UInt8) :
    Stamps (.plain true) (loadGlobal name target) := by
  rw [loadGlobal_eq]
  refine (stamps_toKey name).before fun key => (stamps_resolve _).before fun found => ?_
  cases found with
  | register index => exact stamps_releasing (stamps_emit _ _ _ _) _
  | upvalue index => exact stamps_releasing (stamps_emit _ _ _ _) _
  | global _ => exact stamps_releasing (stamps_throw _) _

theorem stamps_storeGlobal (name : String) (value : Short) :
    Stamps (.plain true) (storeGlobal name value.holder) := by
  rw [storeGlobal_eq]
  refine (stamps_toKey name).before fun key => (stamps_resolve _).before fun found => ?_
  cases found with
  | register index => exact (stamps_emit _ _ _ _).before fun _ => stamps_free _
  | upvalue index => exact (stamps_emit _ _ _ _).before fun _ => stamps_free _
  | global _ => exact (stamps_throw (t := .plain true) _).before fun _ => stamps_free _

theorem stamps_load_of_ne {operand : Operand} (h : ∀ index, operand ≠ .register index)
    (target : UInt8) : Stamps (.plain true) (load operand target) := by
  cases operand with
  | register index => exact absurd rfl (h index)
  | constant slot => exact stamps_loadConstant target slot.toNat
  | boolean value => exact stamps_emit _ _ _ _
  | nil => exact stamps_emit _ _ _ _
  | upvalue index => exact stamps_emit _ _ _ _
  | global name => exact stamps_loadGlobal name target

theorem stamps_load (operand : Operand) (target : UInt8) :
    Stamps (.plain false) (load operand target) := by
  cases operand with
  | register index =>
    unfold load
    dsimp only
    split
    · exact stamps_pure _
    · exact (stamps_emit _ _ _ _).quiet
  | _ => exact (stamps_load_of_ne (by simp) target).quiet

theorem stamps_toRegister (operand : Operand) : Stamps (.plain false) (toRegister operand) := by
  rcases toRegister_cases operand with ⟨index, -, hsame⟩ | hfresh
  · rw [hsame]
    exact stamps_pure index
  · rw [hfresh]
    exact stamps_allocate.before fun _ => (stamps_load _ _).before fun _ => stamps_pure _

theorem stamps_toShort (operand : Operand) : Stamps (.plain false) (toShort operand) := by
  rcases toShort_cases operand with ⟨short, -, hsame⟩ | hheld
  · rw [hsame]
    exact stamps_pure short
  · rw [hheld]
    exact (stamps_toRegister operand).before fun _ => stamps_pure _

theorem stamps_settle (operand : Operand) (dest : Option UInt8) :
    Stamps (.plain false) (settle operand dest) := by
  cases dest with
  | none => exact stamps_pure operand
  | some target =>
    exact (stamps_load operand target).before fun _ => (stamps_free operand).before fun _ =>
      stamps_pure _

theorem stamps_settle_of_ne {operand : Operand} (h : ∀ index, operand ≠ .register index)
    (dest : Option UInt8) : Stamps (.plain dest.isSome) (settle operand dest) := by
  cases dest with
  | none => exact stamps_pure operand
  | some target =>
    exact (stamps_load_of_ne h target).before fun _ => (stamps_free operand).before fun _ =>
      stamps_pure _

theorem stamps_constant (c : Constant) (dest : Option UInt8) :
    Stamps (.plain dest.isSome) (do settle (← constant c) dest) := by
  rw [constant, bind_assoc]
  exact (stamps_onCurrent (FunctionBuilder.stamping_intern c)).before fun _ =>
    stamps_settle_of_ne (by simp) dest

theorem stamps_isFreshTop (target : UInt8) : Stamps (.plain false) (isFreshTop target) :=
  stamps_get_bind fun _ => stamps_pure _

theorem stamps_returnNothing : Stamps (.plain true) returnNothing :=
  stamps_emit _ _ _ _

theorem stamps_declareLocal {value : UInt8 → Lower Unit} (h : ∀ register, Stamps t (value register))
    (name : String) : Stamps t (declareLocal name value) := by
  refine stamps_allocate.behind fun register => (h register).closed fun _ => (stamps_free _).before
    fun _ => (stamps_onCurrent (FunctionBuilder.stamping_bindLocal name)).before fun bound => ?_
  split
  · exact stamps_throw _
  · exact stamps_pure _

end Lower

end RegisterCode
