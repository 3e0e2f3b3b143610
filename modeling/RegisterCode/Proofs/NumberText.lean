import Mathlib.Algebra.Group.Nat.Defs
import Mathlib.Order.Monotone.Basic
import RegisterCode.Binary64

/-! Numbers can be read back from their decimal text. The doubles of one sign are ranked by
their magnitude, and the decimals that read as one of them are those around it, up to the
middle on the way to its neighbours; a middle itself reads as the even one of the two. -/
namespace RegisterCode.Binary64

def rank (x : Binary64) : Nat :=
  x.bits.toNat % 2 ^ 63

def stepAt (rank : Nat) : Nat :=
  2 ^ (rank / 2 ^ 52 - 1)

def magnitudeAt (rank : Nat) : Nat :=
  (if rank / 2 ^ 52 = 0 then rank % 2 ^ 52 else 2 ^ 52 + rank % 2 ^ 52) * stepAt rank

theorem exponentBits_eq (x : Binary64) : x.exponentBits = x.rank / 2 ^ 52 := by
  have hbits := x.bits.toNat_lt
  have hhigh : Nat.pow 2 52 = 2 ^ 52 := rfl
  have hexponent : Nat.pow 2 11 = 2 ^ 11 := rfl
  unfold exponentBits rank
  rw [hhigh, hexponent]
  omega

theorem fractionBits_eq (x : Binary64) : x.fractionBits = x.rank % 2 ^ 52 := by
  have hhigh : Nat.pow 2 52 = 2 ^ 52 := rfl
  unfold fractionBits rank
  rw [hhigh]
  omega

theorem step_eq (x : Binary64) : Nat.pow 2 x.power = stepAt x.rank := by
  unfold power
  rw [exponentBits_eq]
  rfl

theorem magnitude_eq (x : Binary64) : x.magnitude = magnitudeAt x.rank := by
  unfold magnitude significand
  rw [step_eq, exponentBits_eq, fractionBits_eq]
  rfl

theorem stepAt_pos (n : Nat) : 0 < stepAt n :=
  Nat.two_pow_pos _

theorem magnitudeAt_succ (n : Nat) : magnitudeAt (n + 1) = magnitudeAt n + stepAt n := by
  unfold magnitudeAt stepAt
  by_cases hlast : n % 2 ^ 52 = 2 ^ 52 - 1
  · have hquotient : (n + 1) / 2 ^ 52 = n / 2 ^ 52 + 1 := by omega
    have hremainder : (n + 1) % 2 ^ 52 = 0 := by omega
    rw [hquotient, hremainder, hlast]
    cases hexponent : n / 2 ^ 52 with
    | zero => simp
    | succ e =>
      simp only [Nat.add_one_sub_one, Nat.add_one_ne_zero, ↓reduceIte, Nat.pow_succ]
      omega
  · have hquotient : (n + 1) / 2 ^ 52 = n / 2 ^ 52 := by omega
    have hremainder : (n + 1) % 2 ^ 52 = n % 2 ^ 52 + 1 := by omega
    rw [hquotient, hremainder]
    split
    · exact Nat.succ_mul _ _
    · rw [← Nat.add_assoc, Nat.succ_mul]

theorem magnitudeAt_strictMono : StrictMono magnitudeAt := by
  refine strictMono_nat_of_lt_succ fun n => ?_
  rw [magnitudeAt_succ]
  exact Nat.lt_add_of_pos_right (stepAt_pos n)

theorem significand_mod_two (x : Binary64) : x.significand % 2 = x.rank % 2 := by
  have hhigh : Nat.pow 2 52 = 2 ^ 52 := rfl
  unfold significand
  rw [fractionBits_eq, hhigh]
  split <;> omega

theorem upperEnd_eq (x : Binary64) :
    x.upperEnd = magnitudeAt x.rank + magnitudeAt (x.rank + 1) := by
  unfold upperEnd
  rw [step_eq, magnitude_eq, magnitudeAt_succ]
  omega

theorem lowerEnd_eq {x : Binary64} {n : Nat} (h : x.rank = n + 1) :
    x.lowerEnd = magnitudeAt n + magnitudeAt (n + 1) := by
  have hmagnitude := magnitudeAt_succ n
  unfold lowerEnd
  rw [exponentBits_eq, fractionBits_eq, magnitude_eq, h]
  split
  next hfirst =>
    -- the double before is the last one of the power before
    have hstep : Nat.pow 2 (x.power - 1) = stepAt n := by
      unfold power stepAt
      rw [exponentBits_eq, h, show (n + 1) / 2 ^ 52 - 1 = n / 2 ^ 52 by omega]
      rfl
    rw [hstep]
    omega
  next hinside =>
    have hstep : Nat.pow 2 x.power = stepAt n := by
      unfold power stepAt
      rw [exponentBits_eq, h, show (n + 1) / 2 ^ 52 - 1 = n / 2 ^ 52 - 1 by omega]
      rfl
    rw [hstep]
    omega

theorem between_of_readsBack {x : Binary64} {places digits : Nat}
    (h : x.readsBack places digits = true) :
    x.lowerEnd * 10 ^ places ≤ 2 * digits * unit ∧ 2 * digits * unit ≤ x.upperEnd * 10 ^ places ∧
      (x.rank % 2 = 1 → x.lowerEnd * 10 ^ places < 2 * digits * unit ∧
        2 * digits * unit < x.upperEnd * 10 ^ places) := by
  have hscale : Nat.pow 10 places = 10 ^ places := rfl
  unfold readsBack at h
  rw [significand_mod_two, hscale] at h
  split at h
  · simp only [Bool.and_eq_true, decide_eq_true_eq] at h
    exact ⟨h.1, h.2, fun hodd => by omega⟩
  · simp only [Bool.and_eq_true, decide_eq_true_eq] at h
    exact ⟨Nat.le_of_lt h.1, Nat.le_of_lt h.2, fun _ => h⟩

theorem rank_le_of_readsBack {x y : Binary64} {places digits : Nat}
    (hx : x.readsBack places digits = true) (hy : y.readsBack places digits = true) :
    y.rank ≤ x.rank := by
  by_contra hlt
  obtain ⟨n, hn⟩ : ∃ n, y.rank = n + 1 := ⟨y.rank - 1, by omega⟩
  obtain ⟨-, hupper, hodd⟩ := between_of_readsBack hx
  obtain ⟨hlower, -, hodd'⟩ := between_of_readsBack hy
  have hscale : 0 < 10 ^ places := Nat.pow_pos (by decide)
  rw [upperEnd_eq] at hupper hodd
  rw [lowerEnd_eq hn] at hlower hodd'
  rcases Nat.lt_or_eq_of_le (show x.rank ≤ n by omega) with hbelow | hnext
  · -- there is a double between the two
    have hfirst := magnitudeAt_strictMono hbelow
    have hsecond := magnitudeAt_strictMono (Nat.add_lt_add_right hbelow 1)
    have hends := Nat.mul_lt_mul_of_pos_right (Nat.add_lt_add hfirst hsecond) hscale
    omega
  · -- one of two neighbours is odd
    rw [← hnext] at hlower hodd'
    rcases Nat.mod_two_eq_zero_or_one x.rank with heven | hodd₁
    · have := (hodd' (by omega)).1
      omega
    · have := (hodd hodd₁).2
      omega

theorem rank_eq_of_readsBack {x y : Binary64} {places digits : Nat}
    (hx : x.readsBack places digits = true) (hy : y.readsBack places digits = true) :
    x.rank = y.rank :=
  Nat.le_antisymm (rank_le_of_readsBack hy hx) (rank_le_of_readsBack hx hy)

theorem lt_upperEnd (x : Binary64) : 2 * x.magnitude < x.upperEnd :=
  Nat.lt_add_of_pos_right (Nat.pow_pos (by decide))

theorem lowerEnd_le (x : Binary64) : x.lowerEnd ≤ 2 * x.magnitude := by
  unfold lowerEnd
  split <;> exact Nat.sub_le _ _

theorem lowerEnd_lt_of_odd {x : Binary64} (h : x.rank % 2 = 1) : x.lowerEnd < 2 * x.magnitude := by
  obtain ⟨n, hn⟩ : ∃ n, x.rank = n + 1 := ⟨x.rank - 1, by omega⟩
  have hlt : magnitudeAt n < magnitudeAt (n + 1) := magnitudeAt_strictMono (Nat.lt_succ_self n)
  rw [lowerEnd_eq hn, magnitude_eq, hn]
  omega

theorem readsBack_of_exact {x : Binary64} {places digits : Nat}
    (h : digits * unit = x.magnitude * 10 ^ places) : x.readsBack places digits = true := by
  have hscale : Nat.pow 10 places = 10 ^ places := rfl
  have hpos : 0 < 10 ^ places := Nat.pow_pos (by decide)
  have htwice : 2 * digits * unit = 2 * x.magnitude * 10 ^ places := by
    rw [Nat.mul_assoc, h, Nat.mul_assoc]
  have hupper := Nat.mul_lt_mul_of_pos_right x.lt_upperEnd hpos
  unfold readsBack
  rw [significand_mod_two, hscale, htwice]
  split
  next =>
    have hlower := Nat.mul_le_mul_right (10 ^ places) x.lowerEnd_le
    simp [hlower, Nat.le_of_lt hupper]
  next hodd =>
    have hlower := Nat.mul_lt_mul_of_pos_right (lowerEnd_lt_of_odd (x := x) (by omega)) hpos
    simp [hlower, hupper]

theorem readsBack_of_decimalAt {x : Binary64} {places digits : Nat}
    (h : x.decimalAt places = some digits) : x.readsBack places digits = true := by
  unfold decimalAt at h
  dsimp only at h
  split at h
  next hbelow habove =>
    rw [← Option.some.inj h]
    split
    · exact hbelow
    · exact habove
  next hbelow _ =>
    rw [← Option.some.inj h]
    exact hbelow
  next _ habove =>
    rw [← Option.some.inj h]
    exact habove
  next => simp at h

/-- The search ends at a decimal that reads back: the last one it comes to is exact. -/
theorem readsBack_shortestFrom {x : Binary64} {fuel places : Nat} (hplaces : 1 ≤ places)
    (hexact : unit ∣ 10 ^ (places + fuel)) :
    1 ≤ (x.shortestFrom fuel places).1 ∧
      x.readsBack (x.shortestFrom fuel places).1 (x.shortestFrom fuel places).2 = true := by
  induction fuel generalizing places with
  | zero =>
    refine ⟨hplaces, readsBack_of_exact ?_⟩
    exact Nat.div_mul_cancel (Nat.dvd_mul_left_of_dvd hexact x.magnitude)
  | succ fuel ih =>
    unfold shortestFrom
    split
    next digits hdigits => exact ⟨hplaces, readsBack_of_decimalAt hdigits⟩
    next =>
      rw [← Nat.add_assoc, Nat.add_right_comm] at hexact
      exact ih (Nat.le_succ_of_le hplaces) hexact

theorem unit_dvd : unit ∣ 10 ^ (1 + 1074) := by
  decide +kernel

theorem readsBack_shortest (x : Binary64) :
    1 ≤ x.shortest.1 ∧ x.readsBack x.shortest.1 x.shortest.2 = true :=
  readsBack_shortestFrom (Nat.le_refl 1) unit_dvd

def fractionChars (places digits : Nat) : List Char :=
  List.replicate (places - (Nat.toDigits 10 digits).length) '0' ++ Nat.toDigits 10 digits

def decimalChars (places digits : Nat) : List Char :=
  Nat.toDigits 10 (digits / 10 ^ places) ++ '.' :: fractionChars places (digits % 10 ^ places)

theorem toList_toString (n : Nat) : (toString n).toList = Nat.toDigits 10 n := by
  rw [Nat.toString_eq_repr, Nat.repr_eq_ofList_toDigits, String.toList_ofList]

theorem toList_fractionText (places digits : Nat) :
    (fractionText places digits).toList = fractionChars places digits := by
  have hlength : (toString digits).length = (Nat.toDigits 10 digits).length := by
    rw [← String.length_toList, toList_toString]
  simp only [fractionText, fractionChars, String.toList_append, String.toList_ofList,
    toList_toString, hlength]

theorem length_fractionChars {places digits : Nat} (hplaces : 1 ≤ places)
    (hdigits : digits < 10 ^ places) : (fractionChars places digits).length = places := by
  have hle := (Nat.length_toDigits_le_iff (b := 10) (by decide) hplaces).mpr hdigits
  simp only [fractionChars, List.length_append, List.length_replicate]
  omega

theorem ofDigitChars_fractionChars (places digits : Nat) :
    Nat.ofDigitChars 10 (fractionChars places digits) 0 = digits := by
  rw [fractionChars, Nat.ofDigitChars_append, Nat.ofDigitChars_replicate_zero, Nat.mul_zero,
    Nat.ofDigitChars_ten_toDigits]

theorem toDigits_inj {n m : Nat} (h : Nat.toDigits 10 n = Nat.toDigits 10 m) : n = m := by
  rw [← Nat.ofDigitChars_ten_toDigits (n := n), h, Nat.ofDigitChars_ten_toDigits]

theorem isDigit_of_mem_toDigits {n : Nat} {c : Char} (h : c ∈ Nat.toDigits 10 n) :
    c.isDigit = true :=
  Nat.isDigit_of_mem_toDigits (by decide) (by decide) h

theorem takeWhile_decimalChars (places digits : Nat) :
    (decimalChars places digits).takeWhile Char.isDigit =
      Nat.toDigits 10 (digits / 10 ^ places) := by
  rw [decimalChars, List.takeWhile_append_of_pos fun _ => isDigit_of_mem_toDigits]
  simp

theorem decimalChars_inj {places places' digits digits' : Nat} (hplaces : 1 ≤ places)
    (hplaces' : 1 ≤ places') (h : decimalChars places digits = decimalChars places' digits') :
    places = places' ∧ digits = digits' := by
  have hwhole :
      Nat.toDigits 10 (digits / 10 ^ places) = Nat.toDigits 10 (digits' / 10 ^ places') := by
    rw [← takeWhile_decimalChars, h, takeWhile_decimalChars]
  rw [decimalChars, decimalChars, hwhole] at h
  have hfraction := (List.cons.inj (List.append_cancel_left h)).2
  have hlength := congrArg List.length hfraction
  rw [length_fractionChars hplaces (Nat.mod_lt _ (Nat.pow_pos (by decide))),
    length_fractionChars hplaces' (Nat.mod_lt _ (Nat.pow_pos (by decide)))] at hlength
  have hvalue := congrArg (Nat.ofDigitChars 10 · 0) hfraction
  simp only [ofDigitChars_fractionChars] at hvalue
  subst hlength
  refine ⟨rfl, ?_⟩
  rw [← Nat.div_add_mod digits (10 ^ places), ← Nat.div_add_mod digits' (10 ^ places),
    toDigits_inj hwhole, hvalue]

theorem decimalChars_eq_cons (places digits : Nat) :
    ∃ c rest, decimalChars places digits = c :: rest ∧ c.isDigit = true := by
  unfold decimalChars
  cases hwhole : Nat.toDigits 10 (digits / 10 ^ places) with
  | nil => exact absurd (congrArg List.length hwhole) (Nat.ne_of_gt Nat.length_toDigits_pos)
  | cons c rest => exact ⟨c, _, rfl, isDigit_of_mem_toDigits (hwhole ▸ List.mem_cons_self)⟩

def signChars (negative : Bool) : List Char :=
  if negative then ['-'] else []

theorem signChars_append_inj {negative negative' : Bool} {text text' : List Char}
    (htext : text.head? ≠ some '-') (htext' : text'.head? ≠ some '-')
    (h : signChars negative ++ text = signChars negative' ++ text') :
    negative = negative' ∧ text = text' := by
  cases negative with
  | false =>
    cases negative' with
    | false => exact ⟨rfl, h⟩
    | true => exact absurd (congrArg List.head? h) htext
  | true =>
    cases negative' with
    | false => exact absurd (congrArg List.head? h).symm htext'
    | true => exact ⟨rfl, (List.cons.inj h).2⟩

def IsNaN (x : Binary64) : Prop :=
  x.isFinite = false ∧ x.fractionBits ≠ 0

instance (x : Binary64) : Decidable x.IsNaN :=
  inferInstanceAs (Decidable (_ ∧ _))

inductive Shape
  | nan
  | infinite
  | decimal (places digits : Nat)

namespace Shape

def chars : Shape → List Char
  | .nan => ['N', 'a', 'N']
  | .infinite => ['i', 'n', 'f']
  | .decimal places digits => decimalChars places digits

def Fits (x : Binary64) : Shape → Prop
  | .nan => x.IsNaN
  | .infinite => x.isFinite = false ∧ x.fractionBits = 0
  | .decimal places digits => 1 ≤ places ∧ x.readsBack places digits = true

theorem chars_eq_cons (shape : Shape) :
    ∃ c rest, shape.chars = c :: rest ∧ (c = 'N' ∨ c = 'i' ∨ c.isDigit = true) := by
  cases shape with
  | nan => exact ⟨'N', _, rfl, .inl rfl⟩
  | infinite => exact ⟨'i', _, rfl, .inr (.inl rfl)⟩
  | decimal places digits =>
    obtain ⟨c, rest, hchars, hdigit⟩ := decimalChars_eq_cons places digits
    exact ⟨c, rest, hchars, .inr (.inr hdigit)⟩

theorem head?_chars_ne (shape : Shape) : shape.chars.head? ≠ some '-' := by
  obtain ⟨c, rest, hchars, hc⟩ := shape.chars_eq_cons
  rw [hchars]
  rintro ⟨⟩
  simp at hc

theorem decimalChars_ne_cons {c : Char} (hc : c.isDigit = false) (places digits : Nat)
    (rest : List Char) : decimalChars places digits ≠ c :: rest := by
  obtain ⟨d, _, hchars, hdigit⟩ := decimalChars_eq_cons places digits
  rw [hchars]
  rintro ⟨⟩
  simp [hc] at hdigit

theorem eq_of_chars_eq {x y : Binary64} {shape shape' : Shape} (hfits : shape.Fits x)
    (hfits' : shape'.Fits y) (h : shape.chars = shape'.chars) : shape = shape' := by
  cases shape with
  | nan =>
    cases shape' with
    | nan => rfl
    | infinite => cases h
    | decimal places digits => exact absurd h.symm (decimalChars_ne_cons rfl places digits _)
  | infinite =>
    cases shape' with
    | nan => cases h
    | infinite => rfl
    | decimal places digits => exact absurd h.symm (decimalChars_ne_cons rfl places digits _)
  | decimal places digits =>
    cases shape' with
    | nan => exact absurd h (decimalChars_ne_cons rfl places digits _)
    | infinite => exact absurd h (decimalChars_ne_cons rfl places digits _)
    | decimal places' digits' =>
      obtain ⟨rfl, rfl⟩ := decimalChars_inj hfits.1 hfits'.1 h
      rfl

theorem Fits.rank_eq {x y : Binary64} {shape : Shape} (hx : shape.Fits x) (hy : shape.Fits y)
    (hshape : shape ≠ .nan) : x.rank = y.rank := by
  cases shape with
  | nan => exact absurd rfl hshape
  | infinite =>
    obtain ⟨hfinite, hfraction⟩ := hx
    obtain ⟨hfinite', hfraction'⟩ := hy
    simp only [isFinite, exponentBits_eq, fractionBits_eq, bne_eq_false_iff_eq] at *
    omega
  | decimal places digits => exact rank_eq_of_readsBack hx.2 hy.2

end Shape

theorem decimalChars_integral (n : Nat) :
    decimalChars 1 (10 * n) = Nat.toDigits 10 n ++ ['.', '0'] := by
  rw [decimalChars, Nat.pow_one, Nat.mul_div_cancel_left n (by decide), Nat.mul_mod_right]
  rfl

def shownSign (x : Binary64) : Shape → Bool
  | .nan => false
  | .infinite | .decimal .. => x.isNegative

theorem exists_shape (x : Binary64) :
    ∃ shape : Shape, shape.Fits x ∧
      x.text.toList = signChars (x.shownSign shape) ++ shape.chars := by
  have hsign : ∀ text : String, ((if x.isNegative then "-" else "") ++ text).toList =
      signChars x.isNegative ++ text.toList := by
    intro text
    cases x.isNegative <;> simp [signChars]
  unfold text
  dsimp only
  cases hfinite : x.isFinite with
  | false =>
    by_cases hfraction : x.fractionBits = 0
    · refine ⟨.infinite, ⟨hfinite, hfraction⟩, ?_⟩
      simp [hfraction, hsign, shownSign, Shape.chars]
    · refine ⟨.nan, ⟨hfinite, hfraction⟩, ?_⟩
      simp [hfraction, shownSign, Shape.chars, signChars]
  | true =>
    cases hintegral : x.isIntegral with
    | true =>
      have hexact : unit ∣ x.magnitude :=
        Nat.dvd_of_mod_eq_zero (by simpa [isIntegral] using hintegral)
      refine ⟨.decimal 1 (10 * (x.magnitude / unit)), ⟨Nat.le_refl 1, readsBack_of_exact ?_⟩, ?_⟩
      · rw [Nat.mul_assoc, Nat.div_mul_cancel hexact, Nat.pow_one, Nat.mul_comm]
      · simp [String.append_assoc, hsign, shownSign, Shape.chars, decimalChars_integral]
    | false =>
      obtain ⟨hplaces, hreads⟩ := x.readsBack_shortest
      refine ⟨.decimal x.shortest.1 x.shortest.2, ⟨hplaces, hreads⟩, ?_⟩
      simp [String.append_assoc, hsign, shownSign, Shape.chars, decimalChars,
        toList_fractionText]

theorem eq_of_rank_eq {x y : Binary64} (hrank : x.rank = y.rank)
    (hsign : x.isNegative = y.isNegative) : x = y := by
  have hx := x.bits.toNat_lt
  have hy := y.bits.toNat_lt
  have hhigh : Nat.pow 2 63 = 2 ^ 63 := rfl
  have hbits : x.bits.toNat / 2 ^ 63 = 1 ↔ y.bits.toNat / 2 ^ 63 = 1 := by
    simpa [isNegative, hhigh] using Bool.eq_iff_iff.mp hsign
  unfold rank at hrank
  have hsame : x.bits.toNat = y.bits.toNat := by omega
  cases x
  cases y
  exact congrArg mk (UInt64.toNat_inj.mp hsame)

theorem text_eq_iff {x y : Binary64} : x.text = y.text ↔ x = y ∨ x.IsNaN ∧ y.IsNaN := by
  constructor
  · intro h
    obtain ⟨shape, hfits, htext⟩ := x.exists_shape
    obtain ⟨shape', hfits', htext'⟩ := y.exists_shape
    rw [h, htext'] at htext
    obtain ⟨hsign, hchars⟩ := signChars_append_inj shape'.head?_chars_ne shape.head?_chars_ne htext
    obtain rfl := Shape.eq_of_chars_eq hfits' hfits hchars
    cases shape' with
    | nan => exact .inr ⟨hfits, hfits'⟩
    | infinite => exact .inl (eq_of_rank_eq (hfits.rank_eq hfits' (by rintro ⟨⟩)) hsign.symm)
    | decimal => exact .inl (eq_of_rank_eq (hfits.rank_eq hfits' (by rintro ⟨⟩)) hsign.symm)
  · rintro (rfl | ⟨hx, hy⟩)
    · rfl
    · simp [text, hx.1, hx.2, hy.1, hy.2]

end RegisterCode.Binary64
