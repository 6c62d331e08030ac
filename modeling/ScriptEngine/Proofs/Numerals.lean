import ScriptEngine.Decimal.Reading
import ScriptEngine.Proofs.Placeholders
import ScriptEngine.Proofs.Rounding

/-! Decimal numerals, and the one that a script shows for a number.

A `Numeral` is a text of a sign, digits, and perhaps a point and further digits; no text is that of
two numerals (`Numeral.text_injective`). A number of hundredths, written with two decimals and made
as short as it can be, is a numeral of the same value (`shortened_fixed`, `value_ofHundredths`), and
a `Canonical` one. So a finite double is shown by the canonical numeral of what it is rounded to,
and two doubles are shown alike if and only if they are rounded to the same hundredth
(`showNumber_canonical`). -/
namespace ScriptEngine.Decimal

/-! ### Digits -/

theorem isDigit_digitChar {n : Nat} (h : n < 10) : isDigit (Nat.digitChar n) = true :=
  Nat.isDigit_digitChar.trans (decide_eq_true h)

theorem isDigit_of_mem_toDigits {n : Nat} {c : Char} (h : c ∈ Nat.toDigits 10 n) :
    isDigit c = true :=
  Nat.isDigit_of_mem_toDigits (by decide) (by decide) h

theorem digitsValue_toDigits (n : Nat) : digitsValue (Nat.toDigits 10 n) = n :=
  Nat.ofDigitChars_ten_toDigits

theorem digitsValue_append_zeros (digits : List Char) (n : Nat) :
    digitsValue (digits ++ List.replicate n '0') = 10 ^ n * digitsValue digits := by
  have h := Nat.ofDigitChars_append (b := 10) (l := digits) (m := List.replicate n '0') 0
  rwa [Nat.ofDigitChars_replicate_zero] at h

theorem isDigit_of_mem_decimals {count : Nat} {c : Char} (h : c ∈ decimals count) :
    isDigit c = true := by
  rcases List.mem_pair.mp h with rfl | rfl
  · exact isDigit_digitChar (Nat.mod_lt _ (by decide))
  · exact isDigit_digitChar (Nat.mod_lt _ (by decide))

theorem digitsValue_decimals (count : Nat) : digitsValue (decimals count) = count % 100 := by
  have h : Nat.ofDigitChars 10 (decimals count) 0 = 10 * (count / 10 % 10) + count % 10 := by
    rw [decimals, Nat.ofDigitChars_cons_digitChar_of_lt_ten (Nat.mod_lt _ (by decide)),
      Nat.ofDigitChars_cons_digitChar_of_lt_ten (Nat.mod_lt _ (by decide)), Nat.ofDigitChars_nil,
      Nat.mul_zero, Nat.zero_add]
  have hvalue : digitsValue (decimals count) = 10 * (count / 10 % 10) + count % 10 := h
  omega

/-- Only the digits of zero begin with a zero. -/
theorem toDigits_head {n : Nat} (h : (Nat.toDigits 10 n).head? = some '0') :
    Nat.toDigits 10 n = ['0'] := by
  induction n using Nat.base_induction 10 (by decide) with
  | single n hn =>
    rw [Nat.toDigits_of_lt_base hn] at h ⊢
    exact congrArg (· :: []) (Option.some.inj h)
  | digit n d hd hn ih =>
    rw [← Nat.toDigits_append_toDigits (by decide) hn hd,
      List.head?_append_of_ne_nil _ Nat.toDigits_ne_nil] at h
    have hzero : n = 0 := by
      rw [← digitsValue_toDigits n, ih h]
      rfl
    omega

/-! ### Numerals -/

/-- A decimal numeral: a minus or no sign, digits, and perhaps a point and further digits. -/
@[ext]
structure Numeral where
  negative : Bool
  whole : List Char
  fraction : List Char
  whole_ne_nil : whole ≠ []
  whole_digits : ∀ c ∈ whole, isDigit c = true
  fraction_digits : ∀ c ∈ fraction, isDigit c = true

namespace Numeral
variable {n m : Numeral}

/-- The point and what follows it. There is no point if nothing does. -/
def pointed (n : Numeral) : List Char := if n.fraction = [] then [] else '.' :: n.fraction

def unsigned (n : Numeral) : List Char := n.whole ++ n.pointed

def text (n : Numeral) : List Char := if n.negative then '-' :: n.unsigned else n.unsigned

def magnitude (n : Numeral) : ℚ :=
  digitsValue n.whole + digitsValue n.fraction / 10 ^ n.fraction.length

def value (n : Numeral) : ℚ := signOf n.negative * n.magnitude

/-- A numeral is as short as one with at most two decimals can be. -/
structure Canonical (n : Numeral) : Prop where
  two_decimals : n.fraction.length ≤ 2
  no_zero_behind : n.fraction.getLast? ≠ some '0'
  no_zero_ahead : n.whole.head? = some '0' → n.whole = ['0']
  zero_unsigned : n.value = 0 → n.negative = false

theorem head_unsigned (n : Numeral) : ∀ c ∈ n.unsigned.head?, isDigit c = true := by
  intro c hc
  rw [unsigned, List.head?_append_of_ne_nil _ n.whole_ne_nil] at hc
  exact n.whole_digits c (List.mem_of_mem_head? hc)

theorem unsigned_ne_minus (n : Numeral) (rest : List Char) : n.unsigned ≠ '-' :: rest := by
  intro h
  have hdigit := n.head_unsigned '-' (by rw [h]; rfl)
  cases hdigit

/-- The digits before the point, and those behind it, are told from the text. -/
theorem unsigned_injective (h : n.unsigned = m.unsigned) :
    n.whole = m.whole ∧ n.fraction = m.fraction := by
  have hpointed : ∀ n : Numeral, ∀ c ∈ n.pointed.head?, isDigit c = false := by
    intro n c hc
    rw [pointed] at hc
    split at hc
    · cases hc
    · cases hc
      rfl
  obtain ⟨hwhole, hrest⟩ := Text.span_append n.whole_digits (hpointed n)
  obtain ⟨hwhole', hrest'⟩ := Text.span_append m.whole_digits (hpointed m)
  rw [unsigned, unsigned] at h
  rw [h] at hwhole hrest
  refine ⟨hwhole.symm.trans hwhole', ?_⟩
  have hsame : n.pointed = m.pointed := hrest.symm.trans hrest'
  rw [pointed, pointed] at hsame
  split_ifs at hsame with hn hm hm
  · rw [hn, hm]
  · exact (List.cons_inj_right _).mp hsame

theorem magnitude_eq_of_unsigned (h : n.unsigned = m.unsigned) : n.magnitude = m.magnitude := by
  obtain ⟨hwhole, hfraction⟩ := unsigned_injective h
  rw [magnitude, magnitude, hwhole, hfraction]

theorem text_injective (h : n.text = m.text) : n = m := by
  have hsame : n.negative = m.negative ∧ n.unsigned = m.unsigned := by
    rw [text, text] at h
    split_ifs at h with hn hm hm
    · exact ⟨hn.trans hm.symm, (List.cons_inj_right _).mp h⟩
    · exact absurd h.symm (m.unsigned_ne_minus _)
    · exact absurd h (n.unsigned_ne_minus _)
    · exact ⟨(eq_false_of_ne_true hn).trans (eq_false_of_ne_true hm).symm, h⟩
  obtain ⟨hwhole, hfraction⟩ := unsigned_injective hsame.2
  exact Numeral.ext hsame.1 hwhole hfraction

end Numeral

/-! ### Ends of texts -/

section Ends
variable {c d : Char} {text : List Char}

theorem getLast?_withoutEnd (c : Char) (text : List Char) :
    (withoutEnd c text).getLast? ≠ some c := by
  intro h
  have hne : withoutEnd c text ≠ [] := List.ne_nil_of_mem (List.mem_of_getLast? h)
  rw [List.getLast?_eq_some_getLast hne, Option.some.injEq] at h
  exact List.rdropWhile_last_not (· == c) text hne (beq_iff_eq.mpr h)

theorem withoutEnd_of_getLast? (h : text.getLast? ≠ some c) : withoutEnd c text = text := by
  refine List.rdropWhile_eq_self_iff.mpr fun hne hlast => h ?_
  rw [List.getLast?_eq_some_getLast hne, eq_of_beq hlast]

theorem withoutEnd_concat (c : Char) (text : List Char) :
    withoutEnd c (text ++ [c]) = withoutEnd c text :=
  List.rdropWhile_concat_pos _ _ _ (beq_self_eq_true c)

/-- What ends with another character stays. -/
theorem withoutEnd_append_cons (h : d ≠ c) (front text : List Char) :
    withoutEnd c (front ++ d :: text) = front ++ d :: withoutEnd c text := by
  induction text using List.reverseRecOn with
  | nil => exact withoutEnd_of_getLast? (by simpa using h)
  | append_singleton text e ih =>
    have hassoc : front ++ d :: (text ++ [e]) = front ++ d :: text ++ [e] := by
      rw [List.append_assoc, List.cons_append]
    by_cases he : e = c
    · rw [hassoc, he, withoutEnd_concat, withoutEnd_concat, ih]
    · have hend : ∀ text : List Char, (text ++ [e]).getLast? ≠ some c := by simpa using he
      rw [withoutEnd_of_getLast? (hend text), hassoc, withoutEnd_of_getLast? (hend _)]

/-- Repetitions of the character are taken off, and nothing else. -/
theorem exists_withoutEnd (c : Char) (text : List Char) :
    ∃ n, text = withoutEnd c text ++ List.replicate n c := by
  have hall : text.rtakeWhile (· == c) = List.replicate (text.rtakeWhile (· == c)).length c :=
    List.eq_replicate_of_mem fun d hd => eq_of_beq (List.mem_rtakeWhile_imp (p := (· == c)) hd)
  exact ⟨_, hall ▸ List.rdropWhile_append_rtakeWhile.symm⟩

theorem withoutEnd_begins (c : Char) (text : List Char) : withoutEnd c text <+: text :=
  List.rdropWhile_prefix _ _

/-- Digits end without a point. -/
theorem withoutEnd_point {digits : List Char} (hne : digits ≠ [])
    (hdigits : ∀ c ∈ digits, isDigit c = true) (front : List Char) :
    withoutEnd '.' (front ++ digits) = front ++ digits := by
  refine withoutEnd_of_getLast? fun hlast => ?_
  rw [List.getLast?_append_of_ne_nil _ hne] at hlast
  have hdigit := hdigits '.' (List.mem_of_getLast? hlast)
  cases hdigit

end Ends

/-! ### Numbers of hundredths -/

/-- The numeral of a number of hundredths, as short as it can be. -/
def Numeral.ofHundredths (negative : Bool) (count : Nat) : Numeral where
  negative := negative && count != 0
  whole := Nat.toDigits 10 (count / 100)
  fraction := withoutEnd '0' (decimals count)
  whole_ne_nil := Nat.toDigits_ne_nil
  whole_digits _ := isDigit_of_mem_toDigits
  fraction_digits _ h := isDigit_of_mem_decimals ((withoutEnd_begins '0' _).subset h)

section Hundredths
variable (negative : Bool) (count : Nat)
open Numeral

/-- Zeros at the end of decimals do not count. -/
theorem digitsValue_withoutEnd (digits : List Char) :
    (digitsValue (withoutEnd '0' digits) : ℚ) / 10 ^ (withoutEnd '0' digits).length =
      digitsValue digits / 10 ^ digits.length := by
  obtain ⟨n, hn⟩ := exists_withoutEnd '0' digits
  generalize withoutEnd '0' digits = short at hn
  rw [hn, digitsValue_append_zeros, List.length_append, List.length_replicate, pow_add, mul_comm]
  push_cast
  exact (mul_div_mul_right _ _ (by positivity)).symm

theorem magnitude_ofHundredths : (ofHundredths negative count).magnitude = count / 100 := by
  have hsplit : (count : ℚ) = 100 * (count / 100 : ℕ) + (count % 100 : ℕ) := by
    exact_mod_cast (Nat.div_add_mod count 100).symm
  calc (ofHundredths negative count).magnitude
      = digitsValue (Nat.toDigits 10 (count / 100)) +
        digitsValue (decimals count) / 10 ^ (decimals count).length :=
        congrArg _ (digitsValue_withoutEnd (decimals count))
    _ = (count / 100 : ℕ) + (count % 100 : ℕ) / 10 ^ 2 := by
        rw [digitsValue_toDigits, digitsValue_decimals]
        rfl
    _ = count / 100 := by
        rw [hsplit]
        ring

theorem value_ofHundredths :
    (ofHundredths negative count).value = signOf negative * (count / 100) := by
  rw [value, magnitude_ofHundredths]
  rcases eq_or_ne count 0 with rfl | hne
  · simp
  · have hsign : (negative && count != 0) = negative := by simp [hne]
    rw [ofHundredths, hsign]

theorem canonical_ofHundredths : (ofHundredths negative count).Canonical where
  two_decimals := (withoutEnd_begins '0' (decimals count)).length_le
  no_zero_behind := getLast?_withoutEnd '0' (decimals count)
  no_zero_ahead := toDigits_head
  zero_unsigned h := by
    have hzero : count = 0 := by
      rw [value_ofHundredths] at h
      rcases signOf_cases negative with hsign | hsign <;> simpa [hsign] using h
    simp [ofHundredths, hzero]

/-- Nothing but the end of the two decimals is taken off. -/
theorem withoutEnd_fixed : withoutEnd '.' (withoutEnd '0' (fixed negative count)) =
    (if negative then ['-'] else []) ++ (ofHundredths negative count).unsigned := by
  let n := ofHundredths negative count
  let sign := if negative then ['-'] else []
  have hzeros : withoutEnd '0' (fixed negative count) = sign ++ n.whole ++ '.' :: n.fraction :=
    withoutEnd_append_cons (by decide) (sign ++ n.whole) (decimals count)
  rw [hzeros, unsigned, pointed, ← List.append_assoc]
  -- The point keeps the zeros of the whole part, and what is left ends with a digit.
  by_cases hfraction : n.fraction = []
  · rw [if_pos hfraction, hfraction, withoutEnd_concat, List.append_nil]
    exact withoutEnd_point n.whole_ne_nil n.whole_digits sign
  · rw [if_neg hfraction, List.append_cons]
    exact withoutEnd_point hfraction n.fraction_digits _

/-- Zero is the only number of hundredths that is shown as zero. -/
theorem unsigned_ofHundredths : (ofHundredths negative count).unsigned = ['0'] ↔ count = 0 := by
  refine ⟨fun h => ?_, fun h => h ▸ rfl⟩
  have hzero : (ofHundredths negative count).unsigned = (ofHundredths negative 0).unsigned := h
  have hmagnitude := magnitude_eq_of_unsigned hzero
  rw [magnitude_ofHundredths, magnitude_ofHundredths, Nat.cast_zero, zero_div] at hmagnitude
  simpa using hmagnitude

theorem shortened_fixed :
    shortened (fixed negative count) = (ofHundredths negative count).text := by
  rw [shortened, withoutEnd_fixed, text]
  cases negative with
  | false => exact if_neg (unsigned_ne_minus _ _)
  | true =>
    -- The text that loses its sign is that of zero and of nothing else.
    by_cases hzero : count = 0
    · rw [hzero]
      rfl
    · have hshown : ['-'] ++ (ofHundredths true count).unsigned ≠ ['-', '0'] := fun h =>
        hzero ((unsigned_ofHundredths true count).mp (List.append_cancel_left h))
      have hnegative : (ofHundredths true count).negative = true := by simp [ofHundredths, hzero]
      rw [if_pos hnegative]
      exact if_neg hshown

end Hundredths

/-- Equal numbers of hundredths have one numeral. -/
theorem ofHundredths_eq {negative negative' : Bool} {count count' : Nat}
    (h : (Numeral.ofHundredths negative count).value = (Numeral.ofHundredths negative' count').value) :
    Numeral.ofHundredths negative count = Numeral.ofHundredths negative' count' := by
  rw [value_ofHundredths, value_ofHundredths, ← mul_div_assoc, ← mul_div_assoc,
    div_left_inj' (by norm_num)] at h
  have hcount : signOf negative * (count : ℤ) = signOf negative' * count' := by exact_mod_cast h
  have hcases : count = count' ∧ (negative = negative' ∨ count = 0) := by
    cases negative <;> cases negative' <;> simp [signOf] at hcount ⊢ <;> omega
  obtain ⟨rfl, rfl | rfl⟩ := hcases
  · rfl
  · simp [Numeral.ofHundredths]

/-! ### Shown numbers -/

/-- A finite double is shown by the numeral of what it is rounded to. -/
theorem showNumber_eq {x : Float} (hx : x.isFinite = true) : ∃ negative count,
    showNumber x = String.ofList (Numeral.ofHundredths negative count).text ∧
      RoundsTo (exactValue x) (Numeral.ofHundredths negative count).value := by
  obtain ⟨negative, mantissa, exponent, hparts, hrounds⟩ := roundsTo_hundredths hx
  refine ⟨negative, hundredths mantissa exponent, ?_, ?_⟩
  · rw [showNumber, hparts, ← shortened_fixed]
  · rwa [value_ofHundredths]

/-- What it means for a double that it is shown by a numeral. -/
structure ShownBy (x : Float) (n : Numeral) : Prop where
  text : showNumber x = String.ofList n.text
  /-- The text is that of no other numeral. -/
  only : ∀ m : Numeral, showNumber x = String.ofList m.text → m = n
  canonical : n.Canonical
  /-- The numeral stands for what the double is rounded to. -/
  value : ∀ r, RoundsTo (exactValue x) r ↔ r = n.value

/-- **A finite double is shown by a canonical numeral** of the hundredth nearest to it. Two are
shown alike if and only if they are rounded to the same hundredth. -/
theorem showNumber_canonical {x y : Float} (hx : x.isFinite = true) (hy : y.isFinite = true) :
    (∃ n, ShownBy x n) ∧
      (showNumber x = showNumber y ↔
        ∃ r, RoundsTo (exactValue x) r ∧ RoundsTo (exactValue y) r) := by
  obtain ⟨negative, count, htext, hrounds⟩ := showNumber_eq hx
  obtain ⟨negative', count', htext', hrounds'⟩ := showNumber_eq hy
  refine ⟨⟨.ofHundredths negative count, htext, fun m hm => ?_, canonical_ofHundredths _ _,
    fun r => ⟨fun hr => hr.eq hrounds, fun hr => hr ▸ hrounds⟩⟩, fun h => ?_, fun h => ?_⟩
  · rw [htext, String.ofList_inj] at hm
    exact (Numeral.text_injective hm).symm
  · rw [htext, htext', String.ofList_inj] at h
    refine ⟨_, hrounds, ?_⟩
    rwa [Numeral.text_injective h]
  · obtain ⟨r, hr, hr'⟩ := h
    rw [htext, htext', ofHundredths_eq ((hrounds.eq hr).trans (hr'.eq hrounds'))]

/-- An eighth is in the middle of two hundredths, and is shown as the even one. -/
theorem showNumber_eighth :
    (Float.ofBits 0x3fc0000000000000).isFinite = true ∧
    (Float.ofBits 0x3fbeb851eb851eb8).isFinite = true ∧
    showNumber (Float.ofBits 0x3fc0000000000000) = "0.12" ∧
    (∃ n, ShownBy (Float.ofBits 0x3fc0000000000000) n) ∧
    ∃ r, RoundsTo (exactValue (Float.ofBits 0x3fc0000000000000)) r ∧
      RoundsTo (exactValue (Float.ofBits 0x3fbeb851eb851eb8)) r := by
  have hx : (Float.ofBits 0x3fc0000000000000).isFinite = true := by decide
  have hy : (Float.ofBits 0x3fbeb851eb851eb8).isFinite = true := by decide
  obtain ⟨hshown, halike⟩ := showNumber_canonical hx hy
  exact ⟨hx, hy, by decide, hshown, halike.mp (by decide)⟩

end ScriptEngine.Decimal
