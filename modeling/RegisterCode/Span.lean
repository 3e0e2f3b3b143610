/-! Places in the source text. Lines and columns are counted from one, so zero
is free to mean that the front end does not know the place. -/
namespace RegisterCode

structure Span where
  line : UInt32 := 0
  column : UInt32 := 0
deriving DecidableEq

namespace Span

def isKnown (span : Span) : Bool :=
  span.line != 0

def text (span : Span) : String :=
  s!"{span.line}:{span.column}"

end Span

end RegisterCode
