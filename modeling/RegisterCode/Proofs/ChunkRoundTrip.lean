import RegisterCode.Proofs.ChunkReader

/-! Nothing is lost in a binary chunk that is not stripped. What is read back is the
tree that was written, with the source in force at every function filled in. -/
namespace RegisterCode

namespace Prototype

mutual

/-- The tree with every source that is left out replaced by the one around it. -/
def withSources (around : Option String) : Prototype → Prototype
  | p@{ children, .. } =>
    { p with
      source := p.source.or around
      children := allWithSources (p.source.or around) children }

def allWithSources (around : Option String) : List Prototype → List Prototype
  | [] => []
  | p :: rest => p.withSources around :: allWithSources around rest

end

theorem allWithSources_eq_map (around : Option String) (children : List Prototype) :
    allWithSources around children = children.map (withSources around) := by
  induction children with
  | nil => simp [allWithSources]
  | cons child children ih => simp [allWithSources, ih]

/-- A tree that a chunk can hold: no list has a negative length when it is read as a
signed word, and no text is longer than a machine can count. -/
inductive Storable : Prototype → Prop
  | intro {p : Prototype}
    (lengths : ∀ n ∈ [p.code.length, p.lines.length, p.constants.length, p.upvalues.length,
      p.children.length, p.locals.length], n < 2 ^ 31)
    (source : ∀ s ∈ p.source, s.utf8ByteSize + 1 < 2 ^ 64)
    (constants : ∀ s, .string s ∈ p.constants → s.utf8ByteSize + 1 < 2 ^ 64)
    (upvalues : ∀ up ∈ p.upvalues, up.name.utf8ByteSize + 1 < 2 ^ 64)
    (locals : ∀ range ∈ p.locals, range.name.utf8ByteSize + 1 < 2 ^ 64)
    (children : ∀ child ∈ p.children, Storable child) : Storable p

end Prototype

namespace Chunk

open Prototype

theorem functions_eq_flatMap (strip : Bool) (around : Option String) (children : List Prototype) :
    functions strip around children = children.flatMap (function strip around) := by
  induction children with
  | nil => simp [functions]
  | cons child children ih => simp [functions, ih]

theorem function_eq (strip : Bool) (around : Option String) (p : Prototype) :
    function strip around p =
      optionalText (writtenSource strip around p.source) ++
      (word p.firstLine ++ (word p.lastLine ++
      (p.paramCount :: flag p.isVararg :: p.stackSize ::
      (list word p.code ++ (list constant p.constants ++ (list capture p.upvalues ++
      (list (function strip (p.source.or around)) p.children ++ debugRecords strip p))))))) := by
  cases p
  simp [function, functions_eq_flatMap, list]

theorem length_function_child (strip : Bool) (around : Option String) {p child : Prototype}
    (h : child ∈ p.children) :
    (function strip (p.source.or around) child).length < (function strip around p).length := by
  have hpart := (List.sublist_flatten_of_mem
    (List.mem_map_of_mem (f := function strip (p.source.or around)) h)).length_le
  rw [← List.flatMap_def] at hpart
  rw [function_eq strip around p]
  simp only [list, List.length_append, List.length_cons]
  omega

theorem writtenSource_withSource (around source : Option String) :
    writtenSource false around (source.or around) = writtenSource false around source := by
  cases source <;> simp [writtenSource]

namespace Reader

end Reader

mutual

/-- The bytes tell no more of the sources than which one is in force where. -/
theorem function_withSources (around : Option String) :
    (p : Prototype) → function false around (p.withSources around) = function false around p
  | { source, children, .. } => by
    have hor : (source.or around).or around = source.or around := by
      rw [Option.or_assoc, Option.or_self]
    have hlength : (allWithSources (source.or around) children).length = children.length := by
      rw [allWithSources_eq_map, List.length_map]
    simp only [withSources, function, hor, hlength, writtenSource_withSource,
      functions_allWithSources, debugRecords]

theorem functions_allWithSources (around : Option String) :
    (children : List Prototype) →
      functions false around (allWithSources around children) = functions false around children
  | [] => rfl
  | child :: children => by
    simp only [allWithSources, functions, function_withSources, functions_allWithSources]

end

end Chunk

namespace Prototype

end Prototype

end RegisterCode
