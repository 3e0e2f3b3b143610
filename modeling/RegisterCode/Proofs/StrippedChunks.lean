import Mathlib.Data.List.Forall2
import RegisterCode.Proofs.ChunkRoundTrip

/-! A stripped chunk is the tree without its debug information. The reader gives that
tree back, so the bytes tell everything else and tell nothing of names and lines. -/
namespace RegisterCode

/-- The place of an upvalue, which is all that a stripped chunk says of it. -/
def Capture.unnamed (up : Capture) : Capture :=
  { up with name := "" }

namespace Prototype

/-- Two trees that agree at every function on all but sources, line tables, locals and
the names of upvalues. -/
inductive Alike : Prototype → Prototype → Prop
  | intro {p q : Prototype}
    (firstLine : p.firstLine = q.firstLine)
    (lastLine : p.lastLine = q.lastLine)
    (paramCount : p.paramCount = q.paramCount)
    (isVararg : p.isVararg = q.isVararg)
    (stackSize : p.stackSize = q.stackSize)
    (code : p.code = q.code)
    (constants : p.constants = q.constants)
    (upvalues : p.upvalues.map (fun up => (up.inStack, up.index)) =
      q.upvalues.map (fun up => (up.inStack, up.index)))
    (children : List.Forall₂ Alike p.children q.children) : Alike p q

mutual

def stripped : Prototype → Prototype
  | p@{ children, .. } =>
    { p with
      source := none
      lines := []
      locals := []
      upvalues := p.upvalues.map Capture.unnamed
      children := allStripped children }

def allStripped : List Prototype → List Prototype
  | [] => []
  | p :: rest => p.stripped :: allStripped rest

end

theorem allStripped_eq_map (children : List Prototype) :
    allStripped children = children.map stripped := by
  induction children with
  | nil => simp [allStripped]
  | cons child children ih => simp [allStripped, ih]

theorem stripped_eq (p : Prototype) :
    p.stripped =
      { p with
        source := none
        lines := []
        locals := []
        upvalues := p.upvalues.map Capture.unnamed
        children := p.children.map stripped } := by
  cases p
  simp only [stripped, allStripped_eq_map]

theorem map_unnamed_eq_iff {upvalues others : List Capture} :
    upvalues.map Capture.unnamed = others.map Capture.unnamed ↔
      upvalues.map (fun up => (up.inStack, up.index)) =
        others.map (fun up => (up.inStack, up.index)) := by
  induction upvalues generalizing others with
  | nil => cases others <;> simp
  | cons up upvalues ih =>
    cases others with
    | nil => simp
    | cons other others => simp [Capture.unnamed, ih]

mutual

theorem stripped_eq_iff : (p q : Prototype) → (p.stripped = q.stripped ↔ p.Alike q)
  | { children, .. }, { children := others, .. } => by
    have hchildren := allStripped_eq_iff children others
    simp only [stripped, mk.injEq, true_and, and_true, hchildren, map_unnamed_eq_iff]
    constructor
    · rintro ⟨hfirst, hlast, hparams, hvararg, hstack, hcode, hconstants, hupvalues, hnested⟩
      exact .intro hfirst hlast hparams hvararg hstack hcode hconstants hupvalues hnested
    · rintro ⟨hfirst, hlast, hparams, hvararg, hstack, hcode, hconstants, hupvalues, hnested⟩
      exact ⟨hfirst, hlast, hparams, hvararg, hstack, hcode, hconstants, hupvalues, hnested⟩

theorem allStripped_eq_iff : (children others : List Prototype) →
    (allStripped children = allStripped others ↔ List.Forall₂ Alike children others)
  | [], [] => by simp [allStripped]
  | [], _ :: _ => by simp [allStripped]
  | _ :: _, [] => by simp [allStripped]
  | child :: children, other :: others => by
    rw [allStripped, allStripped, List.cons.injEq, List.forall₂_cons,
      stripped_eq_iff child other, allStripped_eq_iff children others]

end

end Prototype

namespace Chunk

open Prototype

theorem list_capture_unnamed (upvalues : List Capture) :
    list capture (upvalues.map Capture.unnamed) = list capture upvalues := by
  unfold list
  rw [List.length_map, List.flatMap_map]
  rfl

mutual

/-- A stripped record depends on no debug information, and on no source around it. -/
theorem function_stripped (around around' : Option String) :
    (p : Prototype) → function true around p.stripped = function true around' p
  | { source, children, .. } => by
    have hlength : (allStripped children).length = children.length := by
      rw [allStripped_eq_map, List.length_map]
    simp only [stripped, function, writtenSource, debugRecords, list_capture_unnamed, hlength,
      functions_allStripped (none.or around) (source.or around'), true_or, if_true]

theorem functions_allStripped (around around' : Option String) :
    (children : List Prototype) →
      functions true around (allStripped children) = functions true around' children
  | [] => rfl
  | child :: children => by
    rw [allStripped, functions, functions, function_stripped around around',
      functions_allStripped around around']

end

namespace Reader

theorem named_nil (upvalues : List Capture) :
    named (upvalues.map fun up => (up.inStack, up.index)) [] =
      upvalues.map Capture.unnamed := by
  induction upvalues with
  | nil => rfl
  | cons up upvalues ih => simp [named, Capture.unnamed, ih]

theorem Takes.unique {α : Type} {reader : Reader α} {bytes : Bytes} {a b : α}
    (ha : reader.Takes bytes a) (hb : reader.Takes bytes b) : a = b :=
  congrArg Prod.fst (Option.some.inj ((ha []).symm.trans (hb [])))

theorem takes_list_nil {α : Type} (reader : Reader α) : (list reader).Takes (Chunk.word 0) [] :=
  (takes_count (by decide)).bind (takes_pure [])

theorem takes_stripped {p : Prototype} (hp : p.Storable) {around : Option String} {depth : Nat}
    (hdepth : (Chunk.function true around p).length ≤ depth) :
    (function depth none).Takes (Chunk.function true around p) p.stripped := by
  induction hp generalizing around depth with
  | @intro p lengths source constants upvalues locals children ih =>
    simp only [List.forall_mem_cons] at lengths
    obtain ⟨hcode, -, hconstants, hupvalues, hchildren, -, -⟩ := lengths
    cases depth with
    | zero =>
      rw [function_eq] at hdepth
      simp at hdepth
    | succ depth =>
      have hnested : ∀ child ∈ p.children, (function depth none).Takes
          (Chunk.function true (p.source.or around) child) child.stripped := by
        intro child hchild
        have hshorter := length_function_child true around hchild
        exact ih child hchild (by omega)
      rw [function_eq, stripped_eq]
      have hsource : optionalText.Takes (Chunk.optionalText none) none :=
        takes_optionalText (by simp)
      refine hsource.bind ?_
      refine (takes_word p.firstLine).bind ((takes_word p.lastLine).bind ?_)
      refine takes_byte_bind ((takes_flag p.isVararg).bind (takes_byte_bind ?_))
      refine (takes_list hcode fun n _ => takes_word n).bind ?_
      refine (takes_list hconstants fun c hc => takes_constant fun s hs =>
        constants s (hs ▸ hc)).bind ?_
      refine (takes_list_map hupvalues fun up _ => takes_place up).bind ?_
      refine (takes_list_map hchildren hnested).bind ?_
      -- The three debug lists are there, and empty.
      unfold debugRecords
      rw [if_pos rfl, List.append_assoc]
      refine (takes_list_nil word).bind ((takes_list_nil localRange).bind ?_)
      refine (takes_list_nil text).bind_nil (takes_guard (Nat.zero_le _) ?_)
      rw [named_nil]
      exact takes_pure _

end Reader

end Chunk

namespace Prototype

theorem stripped_eq_of_function_eq {p q : Prototype} (hp : p.Storable) (hq : q.Storable)
    (h : Chunk.function true none p = Chunk.function true none q) : p.stripped = q.stripped := by
  have hlength : (Chunk.function true none q).length ≤ (Chunk.function true none p).length :=
    Nat.le_of_eq (congrArg List.length h).symm
  have hright := Chunk.Reader.takes_stripped hq hlength
  rw [← h] at hright
  exact (Chunk.Reader.takes_stripped hp (Nat.le_refl _)).unique hright

/-- Two trees have the same stripped chunk exactly if they agree on everything but debug
information. -/
theorem chunk_stripped_eq_iff {p q : Prototype} (hp : p.Storable) (hq : q.Storable) :
    p.chunk true = q.chunk true ↔ p.Alike q := by
  unfold chunk
  constructor
  · intro hsame
    obtain ⟨-, hfunction⟩ := List.cons.inj (List.append_cancel_left hsame)
    exact (stripped_eq_iff p q).mp (stripped_eq_of_function_eq hp hq hfunction)
  · intro halike
    have hstripped := (stripped_eq_iff p q).mpr halike
    have hlength : p.upvalues.length = q.upvalues.length := by
      simpa [stripped_eq] using congrArg (fun tree => tree.upvalues.length) hstripped
    rw [hlength, ← Chunk.function_stripped none none p, hstripped, Chunk.function_stripped]

/-- A function and one inside it, with `name` wherever a name can stand. -/
def labelled (name : String) (lines : List UInt32) : Prototype where
  source := some name
  code := [0x26]
  lines
  upvalues := [⟨name, true, 0⟩]
  locals := [⟨name, 0, 1⟩]
  children :=
    [{ source := some name, lines, constants := [.number ⟨0x7ff8000000000001⟩, .string ""] }]

theorem labelled_storable {name : String} {lines : List UInt32}
    (hname : name.utf8ByteSize + 1 < 2 ^ 64) (hlines : lines.length < 2 ^ 31) :
    (labelled name lines).Storable := by
  refine .intro (by simpa [labelled] using hlines) (by simpa [labelled] using hname)
    (by simp [labelled]) (by simpa [labelled] using hname) (by simpa [labelled] using hname) ?_
  rw [labelled, List.forall_mem_singleton]
  exact .intro (by simpa using hlines) (by simpa using hname) (by simp) (by simp) (by simp)
    (by simp)

/-- Names and line tables make no difference, at no function of the tree. -/
theorem chunk_stripped_labelled :
    (labelled "a" [3]).chunk true = (labelled "longer" []).chunk true ∧
      (labelled "a" [3]).Alike (labelled "longer" []) :=
  have hleft : (labelled "a" [3]).Storable := labelled_storable (by decide) (by decide)
  have hright : (labelled "longer" []).Storable := labelled_storable (by decide) (by decide)
  have hsame : (labelled "a" [3]).chunk true = (labelled "longer" []).chunk true := by
    decide +kernel
  ⟨hsame, (chunk_stripped_eq_iff hleft hright).mp hsame⟩

end Prototype

end RegisterCode
