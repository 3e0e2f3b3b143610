/-! Source maps. With a map, instructions carry generated lines, and the map tells
which place of the source each generated line stands for. -/
namespace RegisterCode

structure Mapping where
  generatedLine : UInt32
  line : UInt32
  column : UInt32
  path : String
deriving DecidableEq

structure SourceMap where
  mappings : Array Mapping := #[]

namespace SourceMap

def size (map : SourceMap) : Nat :=
  map.mappings.size

def add (mapping : Mapping) (map : SourceMap) : SourceMap :=
  ⟨map.mappings.push mapping⟩

def find? (map : SourceMap) (generatedLine : UInt32) : Option Mapping :=
  map.mappings.find? (·.generatedLine == generatedLine)

def mappingText (m : Mapping) : String :=
  s!"{m.generatedLine}:{m.line}:{m.column}:{m.path}\n"

def text (map : SourceMap) : String :=
  .join (map.mappings.toList.map mappingText)

end SourceMap

end RegisterCode
