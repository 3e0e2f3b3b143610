import RegisterCode.Proofs.BuilderChanges
import RegisterCode.Proofs.FinishedFunctions

/-! References into the tables of a function. An instruction is checked when it is
placed; tables only grow afterwards, so what it names stays there to the end. -/
namespace RegisterCode

open Action

inductive Entry
  | constant (slot : Int)
  | upvalue (slot : Int)
  | child (index : Int)
deriving DecidableEq

namespace Tables

/-- The entry exists. The outermost function sees no upvalue but its first. -/
def Has (tables : Tables) : Entry → Prop
  | .constant slot => 0 ≤ slot ∧ slot < tables.constants
  | .upvalue slot => 0 ≤ slot ∧ slot < tables.upvalues ∧ (tables.nested = false → slot = 0)
  | .child index => 0 ≤ index ∧ index < tables.prototypes

structure Grow (tables tables' : Tables) : Prop where
  constants : tables.constants ≤ tables'.constants
  upvalues : tables.upvalues ≤ tables'.upvalues
  prototypes : tables.prototypes ≤ tables'.prototypes
  nested : tables'.nested = tables.nested

theorem Grow.refl (tables : Tables) : tables.Grow tables :=
  ⟨Nat.le_refl _, Nat.le_refl _, Nat.le_refl _, rfl⟩

theorem Has.mono {tables tables' : Tables} {entry : Entry} (h : tables.Has entry)
    (hgrow : tables.Grow tables') : tables'.Has entry := by
  have hconstants := hgrow.constants
  have hupvalues := hgrow.upvalues
  have hprototypes := hgrow.prototypes
  cases entry with
  | constant slot => exact ⟨h.1, by have := h.2; omega⟩
  | upvalue slot => exact ⟨h.1, by have := h.2.1; omega, hgrow.nested ▸ h.2.2⟩
  | child index => exact ⟨h.1, by have := h.2; omega⟩

end Tables

namespace Instruction

def operandEntries (use : ArgUse) (operand : Int) : List Entry :=
  if use = .registerOrConstant ∧ operand < 0 then [.constant (constantSlot operand)] else []

def ownEntry? (i : Instruction) : Option Entry :=
  match i.op with
  | .loadK => some (.constant i.b)
  | .extraArg => some (.constant i.a)
  | .getUpval | .setUpval | .getTabUp => some (.upvalue i.b)
  | .setTabUp => some (.upvalue i.a)
  | .closure => some (.child i.b)
  | _ => none

def entries (i : Instruction) : List Entry :=
  i.ownEntry?.toList ++
    if i.op.layout = .abc then operandEntries i.op.argB i.b ++ operandEntries i.op.argC i.c
    else []

theorem entries_kept (i : Instruction) : i.kept.entries = i.entries := by
  obtain ⟨op, a, b, c, line⟩ := i
  cases op <;> rfl

variable {i : Instruction} {tables : Tables} {previous : Option Instruction} {word : UInt32}

theorem encode_nonneg (h : i.encode = .ok word) :
    0 ≤ i.a ∧ (i.op.layout = .abx ∨ i.op.layout = .abc ∧ i.op.argB = .count → 0 ≤ i.b) := by
  unfold encode at h
  split at h
  next hlayout =>
    obtain ⟨a, ha, h⟩ := except_bind_eq_ok.mp h
    obtain ⟨b, hb, -⟩ := except_bind_eq_ok.mp h
    refine ⟨(store_eq_ok.mp ha).1, ?_⟩
    rintro (hother | ⟨-, huse⟩)
    · simp [hlayout] at hother
    · rw [huse] at hb
      exact (store_eq_ok.mp hb).1
  next hlayout =>
    obtain ⟨a, ha, h⟩ := except_bind_eq_ok.mp h
    obtain ⟨b, hb, -⟩ := except_bind_eq_ok.mp h
    exact ⟨(store_eq_ok.mp ha).1, fun _ => (store_eq_ok.mp hb).1⟩
  next hlayout =>
    obtain ⟨a, ha, -⟩ := except_bind_eq_ok.mp h
    exact ⟨(store_eq_ok.mp ha).1, by simp [hlayout]⟩
  next hlayout =>
    obtain ⟨a, ha, -⟩ := except_bind_eq_ok.mp h
    exact ⟨(store_eq_ok.mp ha).1, by simp [hlayout]⟩

theorem lt_of_within {field : Field} {index : Int} {size : Nat}
    (h : i.within field index size = .ok ()) : index < size := by
  unfold within at h
  split at h
  · omega
  · simp at h

theorem has_upvalue {index : Int} (hnonneg : 0 ≤ index)
    (h : i.within .upvalue index tables.visibleUpvalues = .ok ()) :
    tables.Has (.upvalue index) := by
  have hlt := lt_of_within h
  unfold Tables.visibleUpvalues at hlt
  refine ⟨hnonneg, ?_, ?_⟩
  · split at hlt <;> omega
  · intro hnested
    simp only [hnested, Bool.false_eq_true, ↓reduceIte] at hlt
    omega

theorem has_of_checkEntry (hencode : i.encode = .ok word)
    (h : i.checkEntry tables previous = .ok ())
    (hread : i.op = .extraArg → previous.any (·.op == .loadKX) = true) {entry : Entry}
    (hentry : i.ownEntry? = some entry) : tables.Has entry := by
  obtain ⟨ha, hb⟩ := encode_nonneg hencode
  unfold checkEntry at h
  unfold ownEntry? at hentry
  split at hentry
  case h_1 hop =>
    simp only [hop, Option.some.injEq] at h hentry
    rw [← hentry]
    exact ⟨hb (.inl (by rw [hop]; rfl)), lt_of_within h⟩
  case h_2 hop =>
    simp only [hop, hread hop, ↓reduceIte, Option.some.injEq] at h hentry
    rw [← hentry]
    exact ⟨ha, lt_of_within h⟩
  case h_6 hop =>
    simp only [hop, Option.some.injEq] at h hentry
    rw [← hentry]
    exact has_upvalue ha h
  case h_7 hop =>
    simp only [hop, Option.some.injEq] at h hentry
    rw [← hentry]
    exact ⟨hb (.inl (by rw [hop]; rfl)), lt_of_within h⟩
  case h_8 => simp at hentry
  -- the three opcodes that name an upvalue in B
  all_goals next hop =>
    simp only [hop, Option.some.injEq] at h hentry
    rw [← hentry]
    exact has_upvalue (hb (.inr ⟨by rw [hop]; rfl, by rw [hop]; rfl⟩)) h

theorem has_of_withinConstants {use : ArgUse} {operand : Int} (hlayout : i.op.layout = .abc)
    (h : i.withinConstants tables use operand = .ok ()) {entry : Entry}
    (hentry : entry ∈ operandEntries use operand) : tables.Has entry := by
  unfold operandEntries at hentry
  split at hentry
  · next huse =>
    rw [withinConstants, if_pos ⟨hlayout, huse⟩] at h
    rw [List.mem_singleton.mp hentry]
    have hneg := huse.2
    refine ⟨?_, lt_of_within h⟩
    unfold constantSlot
    omega
  · simp at hentry

/-- An instruction that is accepted names only what exists, unless it is an extra argument
that nobody asks for. -/
theorem has_of_accept (h : i.accept tables previous = .ok word)
    (hread : i.op = .extraArg → previous.any (·.op == .loadKX) = true) :
    ∀ entry ∈ i.entries, tables.Has entry := by
  obtain ⟨_, hencode, h⟩ := except_bind_eq_ok.mp h
  obtain ⟨_, hown, h⟩ := except_bind_eq_ok.mp h
  obtain ⟨_, hb, h⟩ := except_bind_eq_ok.mp h
  obtain ⟨_, hc, -⟩ := except_bind_eq_ok.mp h
  intro entry hentry
  rcases List.mem_append.mp hentry with hentry | hentry
  · exact has_of_checkEntry hencode hown hread (Option.mem_toList.mp hentry)
  · split at hentry
    · next hlayout =>
      rcases List.mem_append.mp hentry with hentry | hentry
      · exact has_of_withinConstants hlayout hb hentry
      · exact has_of_withinConstants hlayout hc hentry
    · simp at hentry

end Instruction

def Prototype.tables (p : Prototype) (nested : Bool) : Tables where
  constants := p.constants.length
  upvalues := p.upvalues.length
  prototypes := p.children.length
  nested

namespace FunctionBuilder

variable {usage : Usage} {f f' : FunctionBuilder}

theorem Change.tables_grow (h : Change usage f f') : f.tables.Grow f'.tables := by
  cases h with
  | capture up => exact { Tables.Grow.refl f.tables with upvalues := by simp [tables] }
  | intern c =>
    have hsize : f.constants.size ≤ (f.constants.intern c).2.size := by
      rw [Pool.size_eq_length, Pool.size_eq_length]
      exact (f.constants.prefix_intern c).length_le
    exact { Tables.Grow.refl f.tables with constants := hsize }
  | adopt child => exact { Tables.Grow.refl f.tables with prototypes := by simp [tables] }
  | _ => exact .refl _

/-- Every instruction has a word and names what exists; an extra argument is looked at only
together with the instruction in front of it. -/
structure Referenced (f : FunctionBuilder) : Prop where
  encodes : ∀ i ∈ f.listing, ∃ word, i.encode = .ok word
  entries : ∀ i ∈ f.listing, i.op ≠ .extraArg → ∀ entry ∈ i.entries, f.tables.Has entry

theorem Referenced.of_accept (h : f.Referenced) (hgrow : f.tables.Grow f'.tables)
    (hlisting : ∀ i ∈ f'.listing, i ∈ f.listing ∨
      ∃ previous word, i.accept f'.tables previous = .ok word) : f'.Referenced := by
  constructor
  · intro i hi
    rcases hlisting i hi with hi | ⟨previous, word, haccept⟩
    · exact h.encodes i hi
    · exact ⟨word, Instruction.encode_of_accept haccept⟩
  · intro i hi hop entry hentry
    rcases hlisting i hi with hi | ⟨previous, word, haccept⟩
    · exact (h.entries i hi hop entry hentry).mono hgrow
    · exact Instruction.has_of_accept haccept (fun hextra => absurd hextra hop) entry hentry

theorem Referenced.change (h : f.Referenced) (hchange : Change usage f f') : f'.Referenced := by
  apply h.of_accept hchange.tables_grow
  intro i hi
  cases hchange with
  | place new word _ haccept =>
    rw [listing_placed] at hi
    rcases List.mem_append.mp hi with hi | hi
    · exact .inl hi
    · rw [List.mem_singleton.mp hi]
      exact .inr ⟨_, word, haccept⟩
  | aim jump index target word _ _ haccept =>
    rw [listing_replaced] at hi
    rcases List.mem_or_eq_of_mem_set hi with hi | rfl
    · exact .inl hi
    · exact .inr ⟨_, word, haccept⟩
  | replace index new old word _ _ haccept =>
    rw [listing_replaced] at hi
    rcases List.mem_or_eq_of_mem_set hi with hi | rfl
    · exact .inl hi
    · exact .inr ⟨_, word, haccept⟩
  | cut size =>
    have hkept : i ∈ f.listing.take size := by simpa [listing] using hi
    exact .inl (List.mem_of_mem_take hkept)
  | _ => exact .inl hi

/-- An extra argument behind a wide load is the slot of a constant. -/
def WideLoads (tables : Tables) (code : List Instruction) : Prop :=
  ∀ k load extra, code[k]? = some load → load.op = .loadKX → code[k + 1]? = some extra →
    extra.op = .extraArg → ∀ entry ∈ extra.entries, tables.Has entry

/-- A wide load takes the place of another instruction only in front of an extra argument
that it can use. -/
def careful : Usage := fun f event =>
  match event with
  | .replace index i => i.op = .loadKX → ∀ extra, f.listing[index + 1]? = some extra →
    extra.op = .extraArg → ∀ entry ∈ extra.entries, f.tables.Has entry
  | _ => True

theorem WideLoads.mono {tables tables' : Tables} {code : List Instruction}
    (h : WideLoads tables code) (hgrow : tables.Grow tables') : WideLoads tables' code :=
  fun k load extra hload hop hextra hop' entry hentry =>
    (h k load extra hload hop hextra hop' entry hentry).mono hgrow

theorem before?_succ (k : Nat) (f : FunctionBuilder) : f.code.before? (k + 1) = f.listing[k]? := by
  simp [Code.before?, Code.get?, listing]

theorem WideLoads.placed (h : WideLoads f.tables f.listing) {i : Instruction} {word : UInt32}
    (haccept : i.accept f.tables f.listing.getLast? = .ok word) :
    WideLoads f.tables (f.listing ++ [i]) := by
  intro k load extra hload hop hextra hop'
  have hlt : k + 1 < (f.listing ++ [i]).length := (List.getElem?_eq_some_iff.mp hextra).1
  rw [List.length_append, List.length_singleton] at hlt
  rw [List.getElem?_append_left (by omega)] at hload
  by_cases hlast : k + 1 = f.listing.length
  · -- the extra argument is the instruction that comes in, and it was checked as one
    have hnew : extra = i := by
      rw [hlast, List.getElem?_append_right (Nat.le_refl _), Nat.sub_self] at hextra
      simpa using hextra.symm
    have hprevious : f.listing.getLast? = some load := by
      rw [List.getLast?_eq_getElem?, ← hlast, Nat.add_sub_cancel, hload]
    rw [hnew] at hop' ⊢
    apply Instruction.has_of_accept haccept
    intro _
    simp [hprevious, hop]
  · rw [List.getElem?_append_left (by omega)] at hextra
    exact h k load extra hload hop hextra hop'

theorem WideLoads.replaced {tables : Tables} {code : List Instruction} (h : WideLoads tables code)
    {index : Nat} {i : Instruction}
    (hfirst : i.op = .loadKX → ∀ extra, code[index + 1]? = some extra →
      extra.op = .extraArg → ∀ entry ∈ extra.entries, tables.Has entry)
    (hsecond : i.op = .extraArg → ∀ k load, index = k + 1 → code[k]? = some load →
      load.op = .loadKX → ∀ entry ∈ i.entries, tables.Has entry) :
    WideLoads tables (code.set index i) := by
  intro k load extra hload hop hextra hop'
  by_cases hk : index = k
  · have hnew : load = i := by
      have hlt := (List.getElem?_eq_some_iff.mp hload).1
      rw [List.length_set] at hlt
      rw [hk, List.getElem?_set_self hlt] at hload
      exact (Option.some.inj hload).symm
    rw [List.getElem?_set_ne (by omega)] at hextra
    exact hfirst (hnew ▸ hop) extra (hk ▸ hextra) hop'
  rw [List.getElem?_set_ne hk] at hload
  by_cases hnext : index = k + 1
  · have hnew : extra = i := by
      have hlt := (List.getElem?_eq_some_iff.mp hextra).1
      rw [List.length_set] at hlt
      rw [hnext, List.getElem?_set_self hlt] at hextra
      exact (Option.some.inj hextra).symm
    rw [hnew] at hop' ⊢
    exact hsecond hop' k load hnext hload hop
  · rw [List.getElem?_set_ne hnext] at hextra
    exact h k load extra hload hop hextra hop'

theorem WideLoads.change (h : WideLoads f.tables f.listing) (hchange : Change careful f f') :
    WideLoads f'.tables f'.listing := by
  have hgrow := h.mono hchange.tables_grow
  cases hchange with
  | place i word _ haccept =>
    rw [listing_placed]
    exact h.placed haccept
  | aim jump index target word _ hjump _ =>
    -- a jump neither asks for an extra argument nor is one
    rw [listing_replaced]
    apply hgrow.replaced
    · intro hop
      rw [show jump.op = .loadKX from hop] at hjump
      simp [Opcode.isJump, Opcode.layout, Opcode.traits] at hjump
    · intro hop
      rw [show jump.op = .extraArg from hop] at hjump
      simp [Opcode.isJump, Opcode.layout, Opcode.traits] at hjump
  | replace index i old word husage _ haccept =>
    rw [listing_replaced]
    apply hgrow.replaced husage
    rintro hop k load rfl hload hop'
    apply Instruction.has_of_accept haccept
    intro _
    simp [before?_succ, hload, hop']
  | cut size =>
    intro k load extra hload hop hextra hop'
    have htake : listing { f with
        code := { f.code with instructions := f.code.instructions.take size }
        scopes := f.scopes.clamp (.ofNat (min size f.pc)) } = f.listing.take size := by
      simp [listing]
    have hold : ∀ {n : Nat} {i : Instruction},
        (f.listing.take size)[n]? = some i → f.listing[n]? = some i := by
      intro n i hi
      rw [List.getElem?_take] at hi
      split at hi
      · exact hi
      · simp at hi
    rw [htake] at hload hextra
    exact h k load extra (hold hload) hop (hold hextra) hop'
  | _ => exact hgrow

theorem IsInitial.listing (h : f.IsInitial) : f.listing = [] := by
  cases h <;> rfl

theorem IsInitial.referenced (h : f.IsInitial) : f.Referenced := by
  constructor <;> simp [h.listing]

theorem IsInitial.wideLoads (h : f.IsInitial) : WideLoads f.tables f.listing := by
  simp [WideLoads, h.listing]

theorem prototype_of_finish {lastLine : UInt32} {p : Prototype} (h : f.finish lastLine = .ok p) :
    ∃ words, f.listing.mapM Instruction.encode = .ok words ∧ f.highWater < 256 ∧
      p = f.prototype words lastLine := by
  rw [finish_eq] at h
  split at h
  · simp at h
  · obtain ⟨words, hwords, h⟩ := except_bind_eq_ok.mp h
    split at h
    · next hhigh =>
      injection h with h
      exact ⟨words, hwords, hhigh, h.symm⟩
    · simp at h

theorem tables_prototype (words : List UInt32) (lastLine : UInt32) (f : FunctionBuilder) :
    (f.prototype words lastLine).tables f.outerLevel.isSome = f.tables := by
  simp [Prototype.tables, prototype, tables, Pool.size_eq_length]

theorem Referenced.decode (h : f.Referenced) {lastLine : UInt32} {p : Prototype}
    (hfinish : f.finish lastLine = .ok p) :
    p.code.mapM Instruction.decode = .ok (f.listing.map Instruction.kept) := by
  obtain ⟨words, hwords, -, rfl⟩ := prototype_of_finish hfinish
  obtain ⟨words', hwords', hdecode, -⟩ := Instruction.mapM_encode f.listing h.encodes
  rw [hwords] at hwords'
  injection hwords' with hsame
  rw [← hsame] at hdecode
  exact hdecode

variable {permits : FunctionBuilder → Operation → Prop}

/-- Whatever was done to a function, all that its words name is in its tables, if only no
wide load was put in the place of the instruction in front of an extra argument that is
too large for it. -/
theorem Reachable.entries_exist (h : f.Reachable permits) {lastLine : UInt32} {p : Prototype}
    (hfinish : f.finish lastLine = .ok p) :
    ∃ code, p.code.mapM Instruction.decode = .ok code ∧
      (∀ i ∈ code, i.op ≠ .extraArg →
        ∀ entry ∈ i.entries, (p.tables f.outerLevel.isSome).Has entry) ∧
      ((∀ g operation, permits g operation → operation.Respects careful g) →
        WideLoads (p.tables f.outerLevel.isSome) code) := by
  obtain ⟨initial, hinitial, hrun⟩ := h
  have hreferenced : f.Referenced := hrun.induction
    (fun g operation _ => operation.respects_anything g)
    (fun _ _ hchange hreferenced => hreferenced.change hchange) hinitial.referenced
  have htables : p.tables f.outerLevel.isSome = f.tables := by
    obtain ⟨words, -, -, rfl⟩ := prototype_of_finish hfinish
    exact tables_prototype words lastLine f
  refine ⟨_, hreferenced.decode hfinish, ?_, ?_⟩
  · intro i hi hop entry hentry
    obtain ⟨old, hold, rfl⟩ := List.mem_map.mp hi
    rw [Instruction.kept_op] at hop
    rw [Instruction.entries_kept] at hentry
    rw [htables]
    exact hreferenced.entries old hold hop entry hentry
  · intro hcareful
    have hstep : ∀ g g', Change careful g g' → WideLoads g.tables g.listing →
        WideLoads g'.tables g'.listing := fun g g' hchange hwide => hwide.change hchange
    have hwide := hrun.induction hcareful hstep hinitial.wideLoads
    rw [htables]
    intro k load extra hload hop hextra hop' entry hentry
    rw [List.getElem?_map] at hload hextra
    obtain ⟨load', hload', rfl⟩ := Option.map_eq_some_iff.mp hload
    obtain ⟨extra', hextra', rfl⟩ := Option.map_eq_some_iff.mp hextra
    rw [Instruction.kept_op] at hop hop'
    rw [Instruction.entries_kept] at hentry
    exact hwide k load' extra' hload' hop hextra' hop' entry hentry

/-- A wide load of the only constant, an upvalue, a sum with a constant that took the place of
a jump, and an instruction that was taken off again. -/
def patched : FunctionBuilder :=
  [Operation.intern .nil, .capture ⟨"x", true, 0⟩, .emit { op := .loadKX },
    .emit { op := .extraArg }, .emit { op := .getUpval, a := 1 }, .jump, .emit { op := .move },
    .dropLast, .replace 3 { op := .add, b := -1, c := 1 }].foldl
    (fun f operation => operation.after f) (start "f" (some 0) 1)

theorem Reachable.entries_exist_patched :
    ∃ p code, patched.finish 3 = .ok p ∧ p.code.mapM Instruction.decode = .ok code ∧
      code.map Instruction.op = [.loadKX, .extraArg, .getUpval, .add] ∧
      WideLoads (p.tables true) code := by
  have hreachable : patched.Reachable fun g operation => operation.Respects careful g := by
    refine ⟨_, .start "f" (some 0) 1, runs_foldl _ ?_ _⟩
    simp [Operation.Respects, careful, Jumps]
  have hops : ((patched.finish 3).toOption.bind fun p =>
      (p.code.mapM Instruction.decode).toOption.map (·.map Instruction.op)) =
      some [.loadKX, .extraArg, .getUpval, .add] := by decide +kernel
  have hnested : patched.outerLevel.isSome = true := by decide +kernel
  cases hfinish : patched.finish 3 with
  | error error => simp [hfinish, Except.toOption] at hops
  | ok p =>
    obtain ⟨code, hcode, -, hwide⟩ := hreachable.entries_exist hfinish
    rw [hnested] at hwide
    rw [hfinish] at hops
    exact ⟨p, code, rfl, hcode, by simpa [Except.toOption, hcode] using hops,
      hwide fun _ _ hpermits => hpermits⟩

/-- An extra argument that nobody asked for, and a wide load that took the place of the
instruction in front of it. -/
def misread : FunctionBuilder :=
  [Operation.emit { op := .move }, .emit { op := .extraArg, a := 5 },
    .replace 0 { op := .loadKX }].foldl
    (fun f operation => operation.after f) (start "f" (some 0) 1)

/-- The extra argument is not checked again when it gets a meaning. -/
theorem not_wideLoads_misread :
    misread.Reachable (fun _ _ => True) ∧ ∃ p, misread.finish 1 = .ok p ∧
      p.code.mapM Instruction.decode = .ok [{ op := .loadKX }, { op := .extraArg, a := 5 }] ∧
      ¬ WideLoads (p.tables true) [{ op := .loadKX }, { op := .extraArg, a := 5 }] := by
  refine ⟨⟨_, .start "f" (some 0) 1, runs_foldl _ (fun _ _ _ => trivial) _⟩, _, rfl, rfl, ?_⟩
  intro hwide
  have hhas := hwide 0 { op := .loadKX } { op := .extraArg, a := 5 } rfl rfl rfl rfl (.constant 5)
    (by decide)
  exact absurd hhas.2 (by decide)

end FunctionBuilder

end RegisterCode
