import RegisterCode.Constant
import RegisterCode.Proofs.NumberText
import RegisterCode.Proofs.QuotedText

/-! Constants can be told from their printed form, NaNs apart, which are all printed alike.
The text shows the type, and within a type it shows the value. -/
namespace RegisterCode.Constant

open Binary64 (signChars)

def typeOfText : List Char → String
  | 'n' :: _ => "nil"
  | 't' :: _ | 'f' :: _ => "boolean"
  | '"' :: _ => "string"
  | text => if text.all fun c => c.isDigit || c == '-' then "integer" else "number"

def IsNaN : Constant → Prop
  | .number value => value.IsNaN
  | _ => False

instance (c : Constant) : Decidable c.IsNaN :=
  match c with
  | .number value => inferInstanceAs (Decidable value.IsNaN)
  | .nil | .boolean _ | .integer _ | .string _ => inferInstanceAs (Decidable False)

/-- Numbers of either type start neither with a letter of a keyword nor with a quote. -/
theorem typeOfText_of_head {c : Char} {rest : List Char}
    (h : c = '-' ∨ c = 'N' ∨ c = 'i' ∨ c.isDigit = true) :
    typeOfText (c :: rest) =
      if (c :: rest).all fun c => c.isDigit || c == '-' then "integer" else "number" := by
  have hne : c ≠ 'n' ∧ c ≠ 't' ∧ c ≠ 'f' ∧ c ≠ '"' := by
    refine ⟨?_, ?_, ?_, ?_⟩ <;> rintro rfl <;> simp at h
  simp [typeOfText, hne]

theorem typeOfText_signed (negative : Bool) {c : Char} {rest : List Char}
    (h : c = 'N' ∨ c = 'i' ∨ c.isDigit = true) :
    typeOfText (signChars negative ++ c :: rest) =
      if (c :: rest).all fun c => c.isDigit || c == '-' then "integer" else "number" := by
  cases negative with
  | false => exact typeOfText_of_head (.inr h)
  | true =>
    have hall : ('-' :: c :: rest).all (fun c => c.isDigit || c == '-') =
        (c :: rest).all fun c => c.isDigit || c == '-' := rfl
    change typeOfText ('-' :: c :: rest) = _
    rw [typeOfText_of_head (.inl rfl), hall]

theorem toList_toString_int (n : Int) :
    (toString n).toList = signChars (n < 0) ++ Nat.toDigits 10 n.natAbs := by
  rw [Int.toString_eq_repr, Int.repr_eq_if]
  by_cases hneg : n < 0
  · rw [if_neg (by omega), String.toList_append, Nat.repr_eq_ofList_toDigits, String.toList_ofList,
      show (-n).toNat = n.natAbs by omega]
    simp [signChars, hneg]
  · rw [if_pos (by omega), Nat.repr_eq_ofList_toDigits, String.toList_ofList,
      show n.toNat = n.natAbs by omega]
    simp [signChars, hneg]

theorem typeOfText_integer (n : Int) : typeOfText (toString n).toList = "integer" := by
  have hall : (Nat.toDigits 10 n.natAbs).all (fun c => c.isDigit || c == '-') = true := by
    rw [List.all_eq_true]
    intro c hc
    rw [Binary64.isDigit_of_mem_toDigits hc, Bool.true_or]
  rw [toList_toString_int]
  cases hdigits : Nat.toDigits 10 n.natAbs with
  | nil => exact absurd (congrArg List.length hdigits) (Nat.ne_of_gt Nat.length_toDigits_pos)
  | cons c rest =>
    have hdigit := Binary64.isDigit_of_mem_toDigits (hdigits ▸ List.mem_cons_self)
    rw [typeOfText_signed _ (.inr (.inr hdigit)), ← hdigits, if_pos hall]

/-- A point or a letter keeps the text of a double apart from those of integers. -/
theorem typeOfText_number (x : Binary64) : typeOfText x.text.toList = "number" := by
  obtain ⟨shape, -, htext⟩ := x.exists_shape
  obtain ⟨c, rest, hchars, hhead⟩ := shape.chars_eq_cons
  have hnone : ¬ shape.chars.all (fun c => c.isDigit || c == '-') = true := by
    cases shape with
    | nan | infinite => decide
    | decimal places digits =>
      rw [List.all_eq_true]
      intro hall
      have hpoint := hall '.' (List.mem_append_right _ List.mem_cons_self)
      simp at hpoint
  rw [htext, hchars, typeOfText_signed _ hhead, ← hchars, if_neg hnone]

theorem typeOfText_text (c : Constant) : typeOfText c.text.toList = c.typeName := by
  cases c with
  | nil => rfl
  | boolean value => cases value <;> rfl
  | integer value => exact typeOfText_integer value.toInt
  | number value => exact typeOfText_number value
  | string value => simp [text, Text.quote, typeOfText, typeName]

theorem toString_int_inj {n m : Int} (h : toString n = toString m) : n = m := by
  have hlist := congrArg String.toList h
  rw [toList_toString_int, toList_toString_int] at hlist
  have hhead : ∀ k : Nat, (Nat.toDigits 10 k).head? ≠ some '-' := by
    intro k hk
    have hdigit := Binary64.isDigit_of_mem_toDigits (List.mem_of_head? hk)
    simp at hdigit
  obtain ⟨hsign, hdigits⟩ := Binary64.signChars_append_inj (hhead _) (hhead _) hlist
  have hnatAbs := Binary64.toDigits_inj hdigits
  rw [decide_eq_decide] at hsign
  omega

/-- Constants are printed alike exactly if they are equal, numbers by their bits, or if both
are NaN. -/
theorem text_eq_iff_eq_or_isNaN (c d : Constant) :
    c.text = d.text ↔ c = d ∨ c.IsNaN ∧ d.IsNaN := by
  constructor
  · intro h
    have htype : c.typeName = d.typeName := by rw [← typeOfText_text, h, typeOfText_text]
    cases c with
    | nil =>
      cases d with
      | nil => exact .inl rfl
      | _ => simp [typeName] at htype
    | boolean value =>
      cases d with
      | boolean other => cases value <;> cases other <;> simp [text] at h ⊢
      | _ => simp [typeName] at htype
    | integer value =>
      cases d with
      | integer other => exact .inl (congrArg integer (Int64.toInt_inj.mp (toString_int_inj h)))
      | _ => simp [typeName] at htype
    | number value =>
      cases d with
      | number other => exact (Binary64.text_eq_iff.mp h).imp_left (congrArg number)
      | _ => simp [typeName] at htype
    | string value =>
      cases d with
      | string other => exact .inl (congrArg string (Text.quote_inj h))
      | _ => simp [typeName] at htype
  · rintro (rfl | ⟨hc, hd⟩)
    · rfl
    · cases c with
      | number value =>
        cases d with
        | number other => exact Binary64.text_eq_iff.mpr (.inr ⟨hc, hd⟩)
        | _ => exact hd.elim
      | _ => exact hc.elim

end RegisterCode.Constant
