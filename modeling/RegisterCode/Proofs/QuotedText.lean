import Mathlib.Tactic.SplitIfs
import RegisterCode.Text.Quoted

/-! Quoted text can be read back. Whichever characters are escaped, the first character of
a text and what follows it can be told from the quoted form. -/
namespace RegisterCode.Text

def hexDigitValue (c : Char) : Nat :=
  if c.isDigit then c.toNat - 48 else c.toNat - 87

def hexValue (digits : List Char) : Nat :=
  digits.foldl (fun value c => 16 * value + hexDigitValue c) 0

def letterEscape? : Char → Option Char
  | '0' => some '\x00'
  | 't' => some '\t'
  | 'r' => some '\r'
  | 'n' => some '\n'
  | '"' => some '"'
  | '\\' => some '\\'
  | _ => none

def readChar : List Char → Option (Char × List Char)
  | '\\' :: 'u' :: '\x7b' :: rest =>
    let digits := rest.takeWhile (· ≠ '\x7d')
    some (.ofNat (hexValue digits), rest.drop (digits.length + 1))
  | '\\' :: letter :: rest => (letterEscape? letter).map (·, rest)
  | c :: rest => some (c, rest)
  | [] => none

theorem hexDigitValue_digitChar : ∀ d < 16, hexDigitValue d.digitChar = d := by
  decide

theorem digitChar_ne_brace : ∀ d < 16, d.digitChar ≠ '\x7d' := by
  decide

theorem hexDigits_eq (n : Nat) :
    hexDigits n = (if n < 16 then [] else hexDigits (n / 16)) ++ [(n % 16).digitChar] := by
  unfold hexDigits
  split
  next hlt => rw [Nat.toDigits_of_lt_base hlt, Nat.mod_eq_of_lt hlt, List.nil_append]
  next hle => exact Nat.toDigits_of_base_le (by decide) (by omega)

theorem hexValue_hexDigits (n : Nat) : hexValue (hexDigits n) = n := by
  induction n using Nat.strongRecOn with
  | ind n ih =>
    have hlast := hexDigitValue_digitChar (n % 16) (Nat.mod_lt n (by decide))
    rw [hexDigits_eq, hexValue, List.foldl_append, List.foldl_cons, List.foldl_nil, hlast]
    split
    next hlt => simp [Nat.mod_eq_of_lt hlt]
    next hle =>
      have hrest : (hexDigits (n / 16)).foldl (fun value c => 16 * value + hexDigitValue c) 0 =
          n / 16 := ih (n / 16) (by omega)
      rw [hrest]
      omega

theorem ne_brace_of_mem_hexDigits {n : Nat} {c : Char} (h : c ∈ hexDigits n) : c ≠ '\x7d' := by
  induction n using Nat.strongRecOn with
  | ind n ih =>
    rw [hexDigits_eq, List.mem_append, List.mem_singleton] at h
    rcases h with hfront | rfl
    · split at hfront
      · cases hfront
      · exact ih (n / 16) (by omega) hfront
    · exact digitChar_ne_brace _ (Nat.mod_lt n (by decide))

theorem readChar_codePointEscape (c : Char) (rest : List Char) :
    readChar (codePointEscape c ++ rest) = some (c, rest) := by
  have hdigits : (hexDigits c.toNat ++ '\x7d' :: rest).takeWhile (· ≠ '\x7d') =
      hexDigits c.toNat := by
    rw [List.takeWhile_append_of_pos (by simpa using fun d hd => ne_brace_of_mem_hexDigits hd)]
    simp
  have hshape : codePointEscape c ++ rest =
      '\\' :: 'u' :: '\x7b' :: (hexDigits c.toNat ++ '\x7d' :: rest) := by
    simp [codePointEscape]
  rw [hshape, readChar, hdigits, hexValue_hexDigits, Char.ofNat_toNat]
  simp

theorem readChar_cons {c : Char} (h : c ≠ '\\') (rest : List Char) :
    readChar (c :: rest) = some (c, rest) := by
  simp [readChar, h]

theorem readChar_quoteChar (c : Char) (rest : List Char) :
    readChar (quoteChar c ++ rest) = some (c, rest) := by
  unfold quoteChar
  split_ifs with hnul htab hreturn hline hquote hbackslash hescaped
  · subst hnul
    rfl
  · subst htab
    rfl
  · subst hreturn
    rfl
  · subst hline
    rfl
  · subst hquote
    rfl
  · subst hbackslash
    rfl
  · exact readChar_codePointEscape c rest
  · exact readChar_cons hbackslash rest

theorem quoteChars_inj {text other : List Char}
    (h : text.flatMap quoteChar = other.flatMap quoteChar) : text = other := by
  induction text generalizing other with
  | nil =>
    cases other with
    | nil => rfl
    | cons d rest =>
      have hread := readChar_quoteChar d (rest.flatMap quoteChar)
      rw [← List.flatMap_cons, ← h] at hread
      cases hread
  | cons c text ih =>
    have hread := readChar_quoteChar c (text.flatMap quoteChar)
    rw [← List.flatMap_cons, h] at hread
    cases other with
    | nil => cases hread
    | cons d rest =>
      rw [List.flatMap_cons, readChar_quoteChar] at hread
      injection hread with hpair
      injection hpair with hhead htail
      rw [hhead, ih htail.symm]

theorem quote_inj {text other : String} (h : quote text = quote other) : text = other := by
  have hlist := String.ofList_inj.mp h
  injection hlist with _ hinside
  exact String.toList_inj.mp (quoteChars_inj (List.append_cancel_right hinside))

end RegisterCode.Text
