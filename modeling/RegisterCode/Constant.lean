import RegisterCode.Binary64
import RegisterCode.Text.Quoted

/-! Constants of a function. -/
namespace RegisterCode

inductive Constant
  | nil
  | boolean (value : Bool)
  | integer (value : Int64)
  | number (value : Binary64)
  | string (value : String)
deriving DecidableEq, Hashable

namespace Constant

def typeName : Constant → String
  | .nil => "nil"
  | .boolean _ => "boolean"
  | .integer _ => "integer"
  | .number _ => "number"
  | .string _ => "string"

/-- The printed form. An integral number keeps a decimal point and a string its
quotes, so the text shows the type. -/
def text : Constant → String
  | .nil => "nil"
  | .boolean value => if value then "true" else "false"
  | .integer value => toString value.toInt
  | .number value => value.text
  | .string value => Text.quote value

end Constant

end RegisterCode
