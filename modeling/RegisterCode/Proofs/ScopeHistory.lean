import Mathlib.Data.List.Induction
import Mathlib.Data.List.Nodup
import RegisterCode.Proofs.BuilderChanges

/-! Scopes along their calls, against a chronicle of the calls. The chronicle forgets
nothing and changes nothing: it knows a scope by the time it was opened and a local by the
time it was declared. What the scopes hold, open and logged, is what the chronicle has. -/
namespace RegisterCode

namespace Scopes

open Action

inductive Call
  | openScope (name : String)
  | declare (l : Local) (line : UInt32)
  | checkFresh (name : String) (line : UInt32)
  | closeScope (pc : UInt32)
  | clamp (limit : UInt32)

namespace Call

def next (scopes : Scopes) : Call → Scopes
  | .openScope name => scopes.openScope name
  | .declare l line => (Scopes.declare l line).after scopes
  | .checkFresh _ _ => scopes
  | .closeScope pc => (Scopes.closeScope pc).after scopes
  | .clamp limit => scopes.clamp limit

def succeeds (scopes : Scopes) : Call → Bool
  | .openScope _ | .clamp _ => true
  | .declare l line => ((Scopes.declare l line).value? scopes).isSome
  | .checkFresh name line => (scopes.checkFresh name line).toOption.isSome
  | .closeScope pc => ((Scopes.closeScope pc).value? scopes).isSome

end Call

def history (calls : List Call) : Scopes :=
  calls.foldl Call.next {}

structure Declaration where
  time : Nat
  /-- The scope that was innermost, by the time of its opening. -/
  scope : Nat
  declared : Local
deriving DecidableEq

structure Opening where
  time : Nat
  name : String

structure Ending where
  time : Nat
  scope : Nat
  pc : UInt32

structure Limit where
  time : Nat
  limit : UInt32

structure Chronicle where
  /-- The number of calls. -/
  time : Nat := 0
  /-- The scopes that were not closed, the last one first. -/
  opened : List Opening := []
  /-- The scopes that were closed, the last one first. -/
  closed : List Ending := []
  /-- In the order of the calls. -/
  declared : List Declaration := []
  /-- In the order of the calls. -/
  limits : List Limit := []

namespace Chronicle

def members (c : Chronicle) (scope : Nat) : List Declaration :=
  c.declared.filter (·.scope = scope)

def IsFree (c : Chronicle) (scope : Nat) (name : String) : Prop :=
  ∀ d ∈ c.members scope, d.declared.name ≠ name

instance (c : Chronicle) (scope : Nat) (name : String) : Decidable (c.IsFree scope name) :=
  inferInstanceAs (Decidable (∀ d ∈ c.members scope, d.declared.name ≠ name))

def Permits (c : Chronicle) : Call → Prop
  | .openScope _ | .clamp _ => True
  | .declare l _ => ∃ innermost ∈ c.opened.head?, c.IsFree innermost.time l.name
  | .checkFresh name _ => ∃ innermost ∈ c.opened.head?, c.IsFree innermost.time name
  | .closeScope _ => c.opened ≠ []

def tick (c : Chronicle) : Chronicle :=
  { c with time := c.time + 1 }

def withOpening (c : Chronicle) (name : String) : Chronicle :=
  { c with time := c.time + 1, opened := ⟨c.time, name⟩ :: c.opened }

def withDeclaration (c : Chronicle) (scope : Nat) (l : Local) : Chronicle :=
  { c with time := c.time + 1, declared := c.declared ++ [⟨c.time, scope, l⟩] }

def withEnding (c : Chronicle) (innermost : Opening) (outer : List Opening) (pc : UInt32) :
    Chronicle :=
  { c with
    time := c.time + 1
    opened := outer
    closed := ⟨c.time, innermost.time, pc⟩ :: c.closed }

def withLimit (c : Chronicle) (limit : UInt32) : Chronicle :=
  { c with time := c.time + 1, limits := c.limits ++ [⟨c.time, limit⟩] }

def next (c : Chronicle) : Call → Chronicle
  | .openScope name => c.withOpening name
  | .declare l _ =>
    match c.opened with
    | [] => c.tick
    | innermost :: _ =>
      if c.IsFree innermost.time l.name then c.withDeclaration innermost.time l else c.tick
  | .checkFresh _ _ => c.tick
  | .closeScope pc =>
    match c.opened with
    | [] => c.tick
    | innermost :: outer => c.withEnding innermost outer pc
  | .clamp limit => c.withLimit limit

/-- A position recorded at a time, lowered to the least of all limits since then. -/
def lowered (c : Chronicle) (time : Nat) (pc : UInt32) : UInt32 :=
  ((c.limits.filter (time < ·.time)).map Limit.limit).foldl min pc

def current (c : Chronicle) (d : Declaration) : Local :=
  { d.declared with
    startPc := c.lowered d.time d.declared.startPc
    endPc := d.declared.endPc.map (c.lowered d.time) }

/-- A declared local after its scope ended, which gives the end of its range if it was
declared without one. -/
def logged (c : Chronicle) (ending : Ending) (d : Declaration) : LocalRange where
  name := d.declared.name
  startPc := c.lowered d.time d.declared.startPc
  endPc :=
    match d.declared.endPc with
    | some pc => c.lowered d.time pc
    | none => c.lowered ending.time ending.pc

def scopeOf (c : Chronicle) (opening : Opening) : Scope where
  name := opening.name
  locals := (c.members opening.time).map c.current

def rangesOf (c : Chronicle) (ending : Ending) : List LocalRange :=
  (c.members ending.scope).map (c.logged ending)

def scopes (c : Chronicle) : List Nat :=
  c.opened.map Opening.time ++ c.closed.map Ending.scope

def places (c : Chronicle) : List Declaration :=
  c.scopes.flatMap c.members

/-- The local has one place: in the scope that it was declared in, if this is open, and else
among the ranges that the scope left in the log. -/
structure Keeps (c : Chronicle) (d : Declaration) : Prop where
  once : c.places.count d = 1
  held : (∃ opening ∈ c.opened, opening.time = d.scope ∧ c.current d ∈ (c.scopeOf opening).locals) ∨
    ∃ ending ∈ c.closed, ending.scope = d.scope ∧ c.logged ending d ∈ c.rangesOf ending

/-- The local is what the name stands for: it was declared in an open scope, and in none of
those further in has anything this name. -/
def Means (c : Chronicle) (name : String) (l : Local) : Prop :=
  ∃ inner opening outer d, c.opened = inner ++ opening :: outer ∧ d ∈ c.members opening.time ∧
    d.declared.name = name ∧ l = c.current d ∧ ∀ other ∈ inner, c.IsFree other.time name

/-- Times are those of different calls, and every local was declared in one of the scopes,
where no other local has its name. -/
structure Ordered (c : Chronicle) : Prop where
  declared : c.declared.Pairwise (·.time < ·.time)
  closed : c.closed.Pairwise (·.time > ·.time)
  scopes : c.scopes.Nodup
  housed : ∀ d ∈ c.declared, d.scope ∈ c.scopes
  names : c.declared.Pairwise fun d d' => d.scope = d'.scope → d.declared.name ≠ d'.declared.name
  declared_lt : ∀ d ∈ c.declared, d.time < c.time
  closed_lt : ∀ ending ∈ c.closed, ending.time < c.time
  scopes_lt : ∀ scope ∈ c.scopes, scope < c.time
  limits_lt : ∀ limit ∈ c.limits, limit.time < c.time

end Chronicle

def chronicle (calls : List Call) : Chronicle :=
  calls.foldl Chronicle.next {}

structure Follows (scopes : Scopes) (c : Chronicle) : Prop where
  stack : scopes.stack = c.opened.map c.scopeOf
  log : scopes.log = c.closed.flatMap c.rangesOf

variable {scopes : Scopes} {c : Chronicle} {call : Call} {calls later : List Call}

namespace Chronicle

theorem mem_members {d : Declaration} {scope : Nat} :
    d ∈ c.members scope ↔ d ∈ c.declared ∧ d.scope = scope := by
  simp [members]

theorem Ordered.members_time (h : c.Ordered) : c.members c.time = [] := by
  rw [members, List.filter_eq_nil_iff]
  intro d hd
  have hlt := h.scopes_lt d.scope (h.housed d hd)
  simp only [decide_eq_true_eq]
  omega

theorem Ordered.lowered_time (h : c.Ordered) (pc : UInt32) : c.lowered c.time pc = pc := by
  have hnone : c.limits.filter (c.time < ·.time) = [] := by
    rw [List.filter_eq_nil_iff]
    intro limit hlimit
    have hlt := h.limits_lt limit hlimit
    simp only [decide_eq_true_eq]
    omega
  rw [lowered, hnone]
  rfl

theorem ordered_start : ({} : Chronicle).Ordered := by
  constructor <;> simp [Chronicle.scopes]

theorem Ordered.tick (h : c.Ordered) : c.tick.Ordered where
  declared := h.declared
  closed := h.closed
  scopes := h.scopes
  housed := h.housed
  names := h.names
  declared_lt d hd := Nat.lt_succ_of_lt (h.declared_lt d hd)
  closed_lt ending hending := Nat.lt_succ_of_lt (h.closed_lt ending hending)
  scopes_lt scope hscope := Nat.lt_succ_of_lt (h.scopes_lt scope hscope)
  limits_lt limit hlimit := Nat.lt_succ_of_lt (h.limits_lt limit hlimit)

theorem Ordered.withOpening (h : c.Ordered) (name : String) : (c.withOpening name).Ordered := by
  have hnew : c.time ∉ c.scopes := fun hmem => Nat.lt_irrefl _ (h.scopes_lt _ hmem)
  exact { h.tick with
    scopes := List.nodup_cons.mpr ⟨hnew, h.scopes⟩
    housed := fun d hd => List.mem_cons_of_mem _ (h.housed d hd)
    scopes_lt := List.forall_mem_cons.mpr ⟨Nat.lt_succ_self _, h.tick.scopes_lt⟩ }

theorem Ordered.withDeclaration (h : c.Ordered) {scope : Nat} (hscope : scope ∈ c.scopes)
    {l : Local} (hfree : c.IsFree scope l.name) : (c.withDeclaration scope l).Ordered := by
  refine { h.tick with
    declared := List.pairwise_append.mpr ⟨h.declared, List.pairwise_singleton _ _, ?_⟩
    housed := List.forall_mem_append.mpr ⟨h.housed, List.forall_mem_singleton.mpr hscope⟩
    names := List.pairwise_append.mpr ⟨h.names, List.pairwise_singleton _ _, ?_⟩
    declared_lt := List.forall_mem_append.mpr
      ⟨h.tick.declared_lt, List.forall_mem_singleton.mpr (Nat.lt_succ_self _)⟩ }
  · intro d hd
    exact List.forall_mem_singleton.mpr (h.declared_lt d hd)
  · intro d hd
    exact List.forall_mem_singleton.mpr fun hsame => hfree d (mem_members.mpr ⟨hd, hsame⟩)

theorem Ordered.withEnding (h : c.Ordered) {innermost : Opening} {outer : List Opening}
    (hopened : c.opened = innermost :: outer) (pc : UInt32) :
    (c.withEnding innermost outer pc).Ordered := by
  -- the scope moves from the front of the open ones to the front of the closed ones
  have hperm : (c.withEnding innermost outer pc).scopes.Perm c.scopes := by
    rw [Chronicle.scopes, Chronicle.scopes, hopened]
    exact List.perm_middle
  exact { h.tick with
    closed := List.pairwise_cons.mpr ⟨h.closed_lt, h.closed⟩
    scopes := hperm.nodup_iff.mpr h.scopes
    housed := fun d hd => hperm.mem_iff.mpr (h.housed d hd)
    closed_lt := List.forall_mem_cons.mpr ⟨Nat.lt_succ_self _, h.tick.closed_lt⟩
    scopes_lt := fun scope hscope => h.tick.scopes_lt scope (hperm.mem_iff.mp hscope) }

theorem Ordered.withLimit (h : c.Ordered) (limit : UInt32) : (c.withLimit limit).Ordered :=
  { h.tick with
    limits_lt := List.forall_mem_append.mpr
      ⟨h.tick.limits_lt, List.forall_mem_singleton.mpr (Nat.lt_succ_self _)⟩ }

inductive Notes (c : Chronicle) : Call → Bool → Chronicle → Prop
  | opens (name : String) : Notes c (.openScope name) true (c.withOpening name)
  | declares {innermost : Opening} {outer : List Opening} {l : Local} (line : UInt32)
    (hopened : c.opened = innermost :: outer) (hfree : c.IsFree innermost.time l.name) :
    Notes c (.declare l line) true (c.withDeclaration innermost.time l)
  | checks {innermost : Opening} {outer : List Opening} {name : String} (line : UInt32)
    (hopened : c.opened = innermost :: outer) (hfree : c.IsFree innermost.time name) :
    Notes c (.checkFresh name line) true c.tick
  | ends {innermost : Opening} {outer : List Opening} (pc : UInt32)
    (hopened : c.opened = innermost :: outer) :
    Notes c (.closeScope pc) true (c.withEnding innermost outer pc)
  | limits (limit : UInt32) : Notes c (.clamp limit) true (c.withLimit limit)
  | refuses {call : Call} (h : ¬ c.Permits call) : Notes c call false c.tick

theorem notes_next (c : Chronicle) (call : Call) :
    ∃ permitted, c.Notes call permitted (c.next call) := by
  cases call with
  | openScope name => exact ⟨_, .opens name⟩
  | declare l line =>
    cases hopened : c.opened with
    | nil =>
      simp only [next, hopened]
      exact ⟨_, .refuses (by simp [Permits, hopened])⟩
    | cons innermost outer =>
      by_cases hfree : c.IsFree innermost.time l.name
      · simp only [next, hopened, if_pos hfree]
        exact ⟨_, .declares line hopened hfree⟩
      · simp only [next, hopened, if_neg hfree]
        exact ⟨_, .refuses (by simpa [Permits, hopened] using hfree)⟩
  | checkFresh name line =>
    cases hopened : c.opened with
    | nil => exact ⟨_, .refuses (by simp [Permits, hopened])⟩
    | cons innermost outer =>
      by_cases hfree : c.IsFree innermost.time name
      · exact ⟨_, .checks line hopened hfree⟩
      · exact ⟨_, .refuses (by simpa [Permits, hopened] using hfree)⟩
  | closeScope pc =>
    cases hopened : c.opened with
    | nil =>
      simp only [next, hopened]
      exact ⟨_, .refuses (by simp [Permits, hopened])⟩
    | cons innermost outer =>
      simp only [next, hopened]
      exact ⟨_, .ends pc hopened⟩
  | clamp limit => exact ⟨_, .limits limit⟩

variable {c' : Chronicle} {permitted : Bool}

theorem Notes.permits_iff (h : c.Notes call permitted c') : c.Permits call ↔ permitted = true := by
  cases h with
  | opens | limits => exact iff_of_true trivial rfl
  | declares _ hopened hfree | checks _ hopened hfree =>
    exact iff_of_true ⟨_, by simp [hopened], hfree⟩ rfl
  | ends _ hopened => exact iff_of_true (by simp [Permits, hopened]) rfl
  | refuses h => exact iff_of_false h (by simp)

theorem Notes.ordered (h : c.Notes call permitted c') (hc : c.Ordered) : c'.Ordered := by
  cases h with
  | opens name => exact hc.withOpening name
  | declares _ hopened hfree => exact hc.withDeclaration (by simp [Chronicle.scopes, hopened]) hfree
  | checks | refuses => exact hc.tick
  | ends pc hopened => exact hc.withEnding hopened pc
  | limits limit => exact hc.withLimit limit

theorem Notes.time_eq (h : c.Notes call permitted c') : c'.time = c.time + 1 := by
  cases h <;> rfl

theorem Notes.declared_grows (h : c.Notes call permitted c') : c.declared <+: c'.declared := by
  cases h with
  | declares => exact List.prefix_append _ _
  | _ => exact List.prefix_rfl

theorem members_withDeclaration (c : Chronicle) (scope other : Nat) (l : Local) :
    (c.withDeclaration scope l).members other =
      c.members other ++ if scope = other then [⟨c.time, scope, l⟩] else [] := by
  simp only [members, withDeclaration, List.filter_append, List.filter_singleton]
  split <;> simp [*]

theorem Ordered.current_new (h : c.Ordered) (scope : Nat) (l : Local) :
    c.current ⟨c.time, scope, l⟩ = l := by
  have hlowered : c.lowered c.time = id := funext h.lowered_time
  simp [current, hlowered]

theorem lowered_withLimit {time : Nat} (h : time < c.time) (limit pc : UInt32) :
    (c.withLimit limit).lowered time pc = min (c.lowered time pc) limit := by
  simp [lowered, withLimit, List.filter_append, h]

end Chronicle

open Chronicle

theorem declare_of_fresh {l : Local} {line : UInt32} (h : scopes.checkFresh l.name line = .ok ()) :
    declare l line scopes = .ok () (scopes.add l) := by
  rw [declare_apply, h]

theorem declare_of_taken {l : Local} {line : UInt32} {error : Error}
    (h : scopes.checkFresh l.name line = .error error) :
    declare l line scopes = .error error scopes := by
  rw [declare_apply, h]

theorem Follows.stack_cons (h : scopes.Follows c) {innermost : Opening} {outer : List Opening}
    (hopened : c.opened = innermost :: outer) :
    scopes.stack = c.scopeOf innermost :: outer.map c.scopeOf := by
  rw [h.stack, hopened, List.map_cons]

theorem Follows.stack_nil (h : scopes.Follows c) (hopened : c.opened = []) : scopes.stack = [] := by
  rw [h.stack, hopened, List.map_nil]

theorem Follows.checkFresh_iff (h : scopes.Follows c) (name : String) (line : UInt32) :
    scopes.checkFresh name line = .ok () ↔
      ∃ innermost ∈ c.opened.head?, c.IsFree innermost.time name := by
  unfold checkFresh
  cases hopened : c.opened with
  | nil => simp [h.stack_nil hopened]
  | cons innermost outer =>
    simp only [h.stack_cons hopened]
    split
    · next htaken => simpa [IsFree, scopeOf, current] using htaken
    · next hfree => simpa [IsFree, scopeOf, current] using hfree

theorem Follows.tick (h : scopes.Follows c) : scopes.Follows c.tick :=
  ⟨h.stack, h.log⟩

theorem Follows.withOpening (h : scopes.Follows c) (hc : c.Ordered) (name : String) :
    (scopes.openScope name).Follows (c.withOpening name) := by
  have hnew : c.scopeOf ⟨c.time, name⟩ = { name } := by rw [scopeOf, hc.members_time, List.map_nil]
  refine ⟨?_, h.log⟩
  change { name } :: scopes.stack = c.scopeOf ⟨c.time, name⟩ :: c.opened.map c.scopeOf
  rw [hnew, h.stack]

theorem Follows.withDeclaration (h : scopes.Follows c) (hc : c.Ordered) {innermost : Opening}
    {outer : List Opening} (hopened : c.opened = innermost :: outer) (l : Local) :
    (scopes.add l).Follows (c.withDeclaration innermost.time l) := by
  have hscopes := hc.scopes
  rw [Chronicle.scopes, hopened, List.map_cons, List.cons_append, List.nodup_cons] at hscopes
  -- all other scopes, open or closed, keep their members
  have hother : ∀ scope ∈ outer.map Opening.time ++ c.closed.map Ending.scope,
      (c.withDeclaration innermost.time l).members scope = c.members scope := by
    intro scope hscope
    have hne : innermost.time ≠ scope := fun hsame => hscopes.1 (by rwa [hsame])
    rw [members_withDeclaration, if_neg hne, List.append_nil]
  have hinner : (c.withDeclaration innermost.time l).scopeOf innermost =
      { c.scopeOf innermost with locals := (c.scopeOf innermost).locals ++ [l] } := by
    have hnew : (c.withDeclaration innermost.time l).current ⟨c.time, innermost.time, l⟩ = l :=
      hc.current_new innermost.time l
    rw [scopeOf, members_withDeclaration, if_pos rfl, List.map_append, List.map_singleton, hnew]
    rfl
  constructor
  · have houter : outer.map (c.withDeclaration innermost.time l).scopeOf = outer.map c.scopeOf := by
      refine List.map_congr_left fun opening hopening => ?_
      rw [scopeOf, hother _ (List.mem_append_left _ (List.mem_map_of_mem hopening))]
      rfl
    change (scopes.add l).stack = c.opened.map (c.withDeclaration innermost.time l).scopeOf
    rw [hopened, List.map_cons, hinner, houter, add, h.stack_cons hopened]
  · have hlog : (scopes.add l).log = scopes.log := by
      rw [add, h.stack_cons hopened]
    rw [hlog, h.log]
    refine List.flatMap_congr fun ending hending => ?_
    rw [rangesOf, rangesOf, hother _ (List.mem_append_right _ (List.mem_map_of_mem hending))]
    rfl

theorem closeScope_of_stack {scope : Scope} {outer : List Scope}
    (hstack : scopes.stack = scope :: outer) (pc : UInt32) :
    ∃ lowest, closeScope pc scopes =
      .ok lowest ⟨outer, scope.locals.map (Local.range pc) ++ scopes.log⟩ := by
  rw [closeScope, hstack]
  exact ⟨_, rfl⟩

theorem Chronicle.Ordered.range_current (hc : c.Ordered) (scope : Nat) (pc : UInt32)
    (d : Declaration) : (c.current d).range pc = c.logged ⟨c.time, scope, pc⟩ d := by
  unfold Local.range current logged
  cases d.declared.endPc with
  | none => simp [hc.lowered_time]
  | some last => simp

theorem Follows.withEnding (h : scopes.Follows c) (hc : c.Ordered) (innermost : Opening)
    (outer : List Opening) (pc : UInt32) :
    Follows ⟨outer.map c.scopeOf, (c.scopeOf innermost).locals.map (Local.range pc) ++ scopes.log⟩
      (c.withEnding innermost outer pc) := by
  refine ⟨rfl, ?_⟩
  change _ = c.rangesOf ⟨c.time, innermost.time, pc⟩ ++ c.closed.flatMap c.rangesOf
  rw [h.log, rangesOf, scopeOf, List.map_map]
  exact congrArg (· ++ _) (List.map_congr_left fun d _ => hc.range_current innermost.time pc d)

theorem Follows.withLimit (h : scopes.Follows c) (hc : c.Ordered) (limit : UInt32) :
    (scopes.clamp limit).Follows (c.withLimit limit) := by
  have hlowered : ∀ d ∈ c.declared, ∀ pc,
      min (c.lowered d.time pc) limit = (c.withLimit limit).lowered d.time pc :=
    fun d hd pc => (lowered_withLimit (hc.declared_lt d hd) limit pc).symm
  constructor
  · rw [clamp, h.stack, List.map_map]
    refine List.map_congr_left fun opening _ => ?_
    have hlocals : (c.members opening.time).map (Local.clamp limit ∘ c.current) =
        (c.members opening.time).map (c.withLimit limit).current := by
      refine List.map_congr_left fun d hd => ?_
      have hmin := hlowered d (mem_members.mp hd).1
      simp [Local.clamp, current, hmin, Function.comp_def]
    simp only [Function.comp_apply, scopeOf, List.map_map, hlocals]
    rfl
  · rw [clamp, h.log, List.map_flatMap]
    refine List.flatMap_congr fun ending hending => ?_
    rw [rangesOf, List.map_map]
    refine List.map_congr_left fun d hd => ?_
    have hmin := hlowered d (mem_members.mp hd).1
    have hend := lowered_withLimit (hc.closed_lt ending hending) limit ending.pc
    simp only [Function.comp_apply, LocalRange.clamp, logged, hmin]
    cases d.declared.endPc with
    | none => simp [hend]
    | some last => simp [hmin]

theorem Follows.refused (h : scopes.Follows c) (hrefused : ¬ c.Permits call) :
    call.succeeds scopes = false ∧ call.next scopes = scopes := by
  cases call with
  | openScope | clamp => exact absurd trivial hrefused
  | declare l line =>
    obtain ⟨error, hfault⟩ : ∃ error, scopes.checkFresh l.name line = .error error := by
      cases houtcome : scopes.checkFresh l.name line with
      | error error => exact ⟨error, rfl⟩
      | ok value => exact absurd ((h.checkFresh_iff l.name line).mp houtcome) hrefused
    have hrun := declare_of_taken hfault
    exact ⟨by simp [Call.succeeds, value?, hrun], after_of_error hrun⟩
  | checkFresh name line =>
    cases houtcome : scopes.checkFresh name line with
    | error error => exact ⟨by simp [Call.succeeds, houtcome, Except.toOption], rfl⟩
    | ok value => exact absurd ((h.checkFresh_iff name line).mp houtcome) hrefused
  | closeScope pc =>
    have hnone : c.opened = [] := not_not.mp hrefused
    have hrun : closeScope pc scopes = .error (.discipline .noScopeToClose) scopes := by
      rw [closeScope, h.stack_nil hnone]
    exact ⟨by simp [Call.succeeds, value?, hrun], after_of_error hrun⟩

/-- A call succeeds exactly if the chronicle permits it, it changes the scopes as the
chronicle notes it, and a failed one changes nothing. -/
theorem Follows.step (h : scopes.Follows c) (hc : c.Ordered) {permitted : Bool} {c' : Chronicle}
    (hnotes : c.Notes call permitted c') :
    call.succeeds scopes = permitted ∧ (call.next scopes).Follows c' ∧
      (permitted = false → call.next scopes = scopes) := by
  cases hnotes with
  | opens name => exact ⟨rfl, h.withOpening hc name, by rintro ⟨⟩⟩
  | declares line hopened hfree =>
    have hfresh := (h.checkFresh_iff _ line).mpr ⟨_, by simp [hopened], hfree⟩
    have hrun := declare_of_fresh hfresh
    have hnext : (Call.declare _ line).next scopes = scopes.add _ := after_of_ok hrun
    refine ⟨by simp [Call.succeeds, value?, hrun], ?_, by rintro ⟨⟩⟩
    rw [hnext]
    exact h.withDeclaration hc hopened _
  | checks line hopened hfree =>
    have hfresh := (h.checkFresh_iff _ line).mpr ⟨_, by simp [hopened], hfree⟩
    exact ⟨by simp [Call.succeeds, hfresh, Except.toOption], h.tick, by rintro ⟨⟩⟩
  | ends pc hopened =>
    obtain ⟨lowest, hrun⟩ := closeScope_of_stack (h.stack_cons hopened) pc
    have hnext : (Call.closeScope pc).next scopes = _ := after_of_ok hrun
    refine ⟨by simp [Call.succeeds, value?, hrun], ?_, by rintro ⟨⟩⟩
    rw [hnext]
    exact h.withEnding hc _ _ pc
  | limits limit => exact ⟨rfl, h.withLimit hc limit, by rintro ⟨⟩⟩
  | refuses hrefused =>
    have hkept := h.refused hrefused
    refine ⟨hkept.1, ?_, fun _ => hkept.2⟩
    rw [hkept.2]
    exact h.tick

theorem history_concat : history (calls ++ [call]) = call.next (history calls) := by
  simp [history]

theorem chronicle_concat : chronicle (calls ++ [call]) = (chronicle calls).next call := by
  simp [chronicle]

theorem ordered_chronicle (calls : List Call) : (chronicle calls).Ordered := by
  induction calls using List.reverseRecOn with
  | nil => exact ordered_start
  | append_singleton calls call ih =>
    obtain ⟨permitted, hnotes⟩ := notes_next (chronicle calls) call
    rw [chronicle_concat]
    exact hnotes.ordered ih

theorem history_follows (calls : List Call) : (history calls).Follows (chronicle calls) := by
  induction calls using List.reverseRecOn with
  | nil => exact ⟨rfl, rfl⟩
  | append_singleton calls call ih =>
    obtain ⟨permitted, hnotes⟩ := notes_next (chronicle calls) call
    rw [chronicle_concat, history_concat]
    exact (ih.step (ordered_chronicle calls) hnotes).2.1

theorem succeeds_iff (calls : List Call) (call : Call) :
    call.succeeds (history calls) = true ↔ (chronicle calls).Permits call := by
  obtain ⟨permitted, hnotes⟩ := notes_next (chronicle calls) call
  rw [((history_follows calls).step (ordered_chronicle calls) hnotes).1, hnotes.permits_iff]

theorem next_of_not_succeeds (h : call.succeeds (history calls) = false) :
    call.next (history calls) = history calls := by
  obtain ⟨permitted, hnotes⟩ := notes_next (chronicle calls) call
  obtain ⟨hsucceeds, -, hsame⟩ := (history_follows calls).step (ordered_chronicle calls) hnotes
  exact hsame (hsucceeds.symm.trans h)

theorem declared_chronicle_grows (calls later : List Call) :
    (chronicle calls).declared <+: (chronicle (calls ++ later)).declared := by
  induction later using List.reverseRecOn with
  | nil => exact (List.append_nil calls).symm ▸ List.prefix_rfl
  | append_singleton later call ih =>
    obtain ⟨permitted, hnotes⟩ := notes_next (chronicle (calls ++ later)) call
    rw [← List.append_assoc, chronicle_concat]
    exact ih.trans hnotes.declared_grows

theorem time_chronicle (calls : List Call) : (chronicle calls).time = calls.length := by
  induction calls using List.reverseRecOn with
  | nil => rfl
  | append_singleton calls call ih =>
    obtain ⟨permitted, hnotes⟩ := notes_next (chronicle calls) call
    rw [chronicle_concat, hnotes.time_eq, List.length_append, List.length_singleton, ih]

theorem declared_of_succeeds {l : Local} {line : UInt32}
    (h : (Call.declare l line).succeeds (history calls) = true) (later : List Call) :
    ∃ innermost outer, (chronicle calls).opened = innermost :: outer ∧
      ⟨calls.length, innermost.time, l⟩ ∈
        (chronicle (calls ++ .declare l line :: later)).declared := by
  obtain ⟨innermost, hinnermost, hfree⟩ := (succeeds_iff calls _).mp h
  obtain ⟨outer, hopened⟩ := List.head?_eq_some_iff.mp hinnermost
  have hnoted : (chronicle (calls ++ [.declare l line])).declared =
      (chronicle calls).declared ++ [⟨calls.length, innermost.time, l⟩] := by
    rw [chronicle_concat, Chronicle.next, hopened]
    simp only [if_pos hfree, Chronicle.withDeclaration, time_chronicle]
  refine ⟨innermost, outer, hopened, ?_⟩
  rw [List.append_cons]
  refine (declared_chronicle_grows _ later).subset ?_
  rw [hnoted]
  exact List.mem_append_right _ (List.mem_singleton_self _)

namespace Chronicle

theorem Ordered.nodup_declared (h : c.Ordered) : c.declared.Nodup :=
  h.declared.imp fun hlt => ne_of_apply_ne Declaration.time (Nat.ne_of_lt hlt)

theorem Ordered.nodup_places (h : c.Ordered) : c.places.Nodup := by
  refine List.nodup_flatMap.mpr ⟨fun scope _ => h.nodup_declared.filter _, ?_⟩
  refine h.scopes.imp fun {scope other} hne d hd hd' => hne ?_
  rw [← (mem_members.mp hd).2, ← (mem_members.mp hd').2]

theorem Ordered.places_perm (h : c.Ordered) : c.places.Perm c.declared := by
  refine (List.perm_ext_iff_of_nodup h.nodup_places h.nodup_declared).mpr fun d => ?_
  simp only [places, List.mem_flatMap, mem_members]
  exact ⟨fun ⟨_, _, hd, _⟩ => hd, fun hd => ⟨d.scope, h.housed d hd, hd, rfl⟩⟩

theorem Ordered.keeps (h : c.Ordered) {d : Declaration} (hd : d ∈ c.declared) : c.Keeps d where
  once := List.count_eq_one_of_mem h.nodup_places (h.places_perm.mem_iff.mpr hd)
  held := by
    rcases List.mem_append.mp (h.housed d hd) with hopen | hclosed
    · obtain ⟨opening, hopening, hscope⟩ := List.mem_map.mp hopen
      exact .inl ⟨opening, hopening, hscope,
        List.mem_map_of_mem (mem_members.mpr ⟨hd, hscope.symm⟩)⟩
    · obtain ⟨ending, hending, hscope⟩ := List.mem_map.mp hclosed
      exact .inr ⟨ending, hending, hscope,
        List.mem_map_of_mem (mem_members.mpr ⟨hd, hscope.symm⟩)⟩

theorem Ordered.nodup_names (h : c.Ordered) (opening : Opening) :
    ((c.scopeOf opening).locals.map Local.name).Nodup := by
  rw [scopeOf, List.map_map, List.nodup_iff_pairwise_ne, List.pairwise_map]
  refine (h.names.filter _).imp_of_mem fun {d d'} hd hd' hne => hne ?_
  rw [(mem_members.mp hd).2, (mem_members.mp hd').2]

theorem find?_scopeOf_eq_none {opening : Opening} {name : String} :
    (c.scopeOf opening).find? name = none ↔ c.IsFree opening.time name := by
  simp [Scope.find?_eq_none_iff, scopeOf, current, IsFree]

theorem Ordered.find?_scopeOf_eq_some (h : c.Ordered) {opening : Opening} {name : String}
    {l : Local} :
    (c.scopeOf opening).find? name = some l ↔
      ∃ d ∈ c.members opening.time, d.declared.name = name ∧ l = c.current d := by
  rw [find?_scope_eq_some_iff (h.nodup_names opening)]
  constructor
  · rintro ⟨hl, hname⟩
    obtain ⟨d, hd, rfl⟩ := List.mem_map.mp hl
    exact ⟨d, hd, hname, rfl⟩
  · rintro ⟨d, hd, hname, rfl⟩
    exact ⟨List.mem_map_of_mem hd, hname⟩

end Chronicle

theorem Follows.find?_eq_some_iff (h : scopes.Follows c) (hc : c.Ordered) {name : String}
    {l : Local} : scopes.find? name = some l ↔ c.Means name l := by
  rw [find?, h.stack, List.findSome?_map, List.findSome?_eq_some_iff]
  simp only [Function.comp_apply, hc.find?_scopeOf_eq_some, find?_scopeOf_eq_none]
  constructor
  · rintro ⟨inner, opening, outer, hopened, ⟨d, hd, hname, hl⟩, hinner⟩
    exact ⟨inner, opening, outer, d, hopened, hd, hname, hl, hinner⟩
  · rintro ⟨inner, opening, outer, d, hopened, hd, hname, hl, hinner⟩
    exact ⟨inner, opening, outer, hopened, ⟨d, hd, hname, hl⟩, hinner⟩

/-- After any calls the open scopes and the log are those of the chronicle: the log is made
of the closed scopes, the last one first, and no scope that is open has two locals of one
name. A local that is declared keeps its one place through all later calls. A name stands
for the local that the innermost scope with such a local has. Calls succeed exactly if the
chronicle permits them, and those that fail change nothing. -/
theorem history_matches_chronicle (calls : List Call) :
    (history calls).Follows (chronicle calls) ∧ (chronicle calls).Ordered ∧
    (∀ scope ∈ (history calls).stack, (scope.locals.map Local.name).Nodup) ∧
    (∀ (l : Local) (line : UInt32) (later : List Call),
      (Call.declare l line).succeeds (history calls) = true →
      ∃ innermost outer, (chronicle calls).opened = innermost :: outer ∧
        (chronicle (calls ++ .declare l line :: later)).Keeps
          ⟨calls.length, innermost.time, l⟩) ∧
    (∀ (name : String) (l : Local),
      (history calls).find? name = some l ↔ (chronicle calls).Means name l) ∧
    ∀ call : Call, (call.succeeds (history calls) = true ↔ (chronicle calls).Permits call) ∧
      (call.succeeds (history calls) = false → call.next (history calls) = history calls) := by
  have hfollows := history_follows calls
  have hordered := ordered_chronicle calls
  refine ⟨hfollows, hordered, ?_, ?_, fun name l => hfollows.find?_eq_some_iff hordered,
    fun call => ⟨succeeds_iff calls call, next_of_not_succeeds⟩⟩
  · intro scope hscope
    rw [hfollows.stack] at hscope
    obtain ⟨opening, -, rfl⟩ := List.mem_map.mp hscope
    exact hordered.nodup_names opening
  · intro l line later hsucceeds
    obtain ⟨innermost, outer, hopened, hd⟩ := declared_of_succeeds hsucceeds later
    exact ⟨innermost, outer, hopened, (ordered_chronicle _).keeps hd⟩

def nestedCalls : List Call :=
  [.openScope "outer", .declare { name := "x", register := 0, startPc := 1 } 1, .openScope "inner"]

def shadowing : Local :=
  { name := "x", register := 1, startPc := 5, endPc := some 8 }

/-- A second local of the name in vain, the code cut while the scope is open and once more
when a scope beside it is closed too. -/
def laterCalls : List Call :=
  [.declare shadowing 3, .clamp 6, .closeScope 9, .openScope "sibling",
    .declare { name := "y", register := 1, startPc := 7 } 4, .closeScope 9, .clamp 8]

theorem history_matches_chronicle_sibling :
    (Call.declare shadowing 2).succeeds (history nestedCalls) = true ∧
      (Call.declare shadowing 3).succeeds
        (history (nestedCalls ++ [.declare shadowing 2])) = false ∧
      (history (nestedCalls ++ .declare shadowing 2 :: laterCalls)).log =
        [⟨"y", 7, 8⟩, ⟨"x", 5, 6⟩] ∧
      ∃ innermost outer, (chronicle nestedCalls).opened = innermost :: outer ∧
        (chronicle (nestedCalls ++ .declare shadowing 2 :: laterCalls)).Keeps
          ⟨nestedCalls.length, innermost.time, shadowing⟩ := by
  have hsucceeds : (Call.declare shadowing 2).succeeds (history nestedCalls) = true := by
    decide +kernel
  exact ⟨hsucceeds, by decide +kernel, by decide +kernel,
    (history_matches_chronicle nestedCalls).2.2.2.1 shadowing 2 laterCalls hsucceeds⟩

end Scopes

end RegisterCode
