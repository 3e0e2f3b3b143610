import RegisterCode.Text.Quoted

/-! Settings for one chunk. -/
namespace RegisterCode

structure Options where
  /-- Recorded as the source of the outermost function. -/
  chunkName : String := "=?"
  /-- Written into source mappings. -/
  sourcePath : String := ""
  /-- Leave debug records out of the binary chunk. -/
  strip : Bool := false
deriving DecidableEq

namespace Options

/-- A chunk that comes from a file is named by its path behind an at sign. -/
def ofFile (path : String) : Options where
  chunkName := "@" ++ path
  sourcePath := path

def text (options : Options) : String :=
  s!"CodegenOptions \x7b chunk_name: {Text.quote options.chunkName}, " ++
    s!"source_path: {Text.quote options.sourcePath}, " ++
    s!"strip_debug: {options.strip} \x7d"

end Options

end RegisterCode
