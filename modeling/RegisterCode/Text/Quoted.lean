import RegisterCode.Text.GraphemeExtend

/-! Quoted text. A character stands for itself unless it is a quote, a backslash,
unprintable or would attach to its neighbour; then an escape names it. -/
namespace RegisterCode.Text

def hexDigits (n : Nat) : List Char :=
  Nat.toDigits 16 n

/-- The code point in braces, in lower-case hexadecimal without leading zeros. -/
def codePointEscape (c : Char) : List Char :=
  ['\\', 'u', '\x7b'] ++ hexDigits c.toNat ++ ['\x7d']

def quoteChar (c : Char) : List Char :=
  if c = '\x00' then ['\\', '0']
  else if c = '\t' then ['\\', 't']
  else if c = '\r' then ['\\', 'r']
  else if c = '\n' then ['\\', 'n']
  else if c = '"' then ['\\', '"']
  else if c = '\\' then ['\\', '\\']
  else if isGraphemeExtend c || isUnprintable c then codePointEscape c
  else [c]

def quote (text : String) : String :=
  .ofList ('"' :: (text.toList.flatMap quoteChar ++ ['"']))

end RegisterCode.Text
