import Mathlib
import ScriptEngine.Decimal.Hundredths

/-! Doubles as exact numbers, and the hundredths nearest to them.

A finite double stands for one number, its `exactValue`, and taking it apart loses nothing of it
(`exactValue_eq`). A quotient of whole numbers is rounded to the whole number `Nearest` to it
(`nearest_roundHalfEven`), of which there is one (`Nearest.eq`). So the hundredths of a double are
those nearest to its exact value (`hundredths_nearest`). -/
namespace ScriptEngine.Decimal
open Float.Model Float.Model.UnpackedFloat

/-! ### The number that a double stands for -/

/-- The number that a finite double stands for. -/
def exactValue (x : Float) : ℚ :=
  match x.toModel.unpack with
  | .finite sign mantissa exponent _ => sign.apply mantissa * 2 ^ exponent
  | _ => 0

def signOf (negative : Bool) : ℤ := if negative then -1 else 1

theorem signOf_cases (negative : Bool) : signOf negative = 1 ∨ signOf negative = -1 := by
  cases negative
  · exact .inl rfl
  · exact .inr rfl

theorem toNat_unpackMantissa (b : BitVec Format.binary64.numBits) :
    (unpackMantissa b).toNat = b.toNat % Nat.pow 2 52 := by
  simp [unpackMantissa]

theorem toNat_unpackExponent (b : BitVec Format.binary64.numBits) :
    (unpackExponent b).toNat = b.toNat / Nat.pow 2 52 % Nat.pow 2 11 := by
  simp [unpackExponent, Nat.shiftRight_eq_div_pow]

theorem toNat_unpackSign (b : BitVec Format.binary64.numBits) :
    (unpackSign b).toNat = b.toNat / Nat.pow 2 63 := by
  have hlt : b.toNat < 2 ^ 64 := b.isLt
  simp [unpackSign, Nat.shiftRight_eq_div_pow]
  omega

/-- The mantissa of a normal number has one bit more than is stored. -/
theorem toNat_normal (m : BitVec 52) : (1#1 ++ m).toNat = m.toNat + Nat.pow 2 52 := by
  have hlt := m.isLt
  rw [BitVec.toNat_append, ← Nat.shiftLeft_add_eq_or_of_lt hlt]
  simp [Nat.shiftLeft_eq]
  omega

def isNegative : Sign → Bool
  | .negative => true
  | .positive => false

theorem isNegative_ofBitVec (s : BitVec 1) : isNegative (Sign.ofBitVec s) = (s.toNat == 1) := by
  revert s
  decide

def Double.ofUnpacked : UnpackedFloat → Double
  | .notANumber => .nan
  | .infinity sign => .infinite (isNegative sign)
  | .zero sign => .finite (isNegative sign) 0 (-1074)
  | .finite sign mantissa exponent _ => .finite (isNegative sign) mantissa exponent

/-- The parts that are read from the bits of a double are those of the number that it is. -/
theorem ofFloat_eq (x : Float) : Double.ofFloat x = .ofUnpacked x.toModel.unpack := by
  let b : BitVec Format.binary64.numBits := x.toBits.toBitVec
  have hmantissa : (unpackMantissa b).toNat = x.toBits.toNat % Nat.pow 2 52 :=
    toNat_unpackMantissa b
  have hexponent : (unpackExponent b).toNat =
      x.toBits.toNat / Nat.pow 2 52 % Nat.pow 2 11 := toNat_unpackExponent b
  have hsign : (unpackSign b).toNat = x.toBits.toNat / Nat.pow 2 63 := toNat_unpackSign b
  have hlast : (unpackExponent b).toNat = 2047 ↔ unpackExponent b = -1#11 :=
    BitVec.toNat_inj (y := -1#11)
  have hfirst : (unpackExponent b).toNat = 0 ↔ unpackExponent b = 0#11 :=
    BitVec.toNat_inj (y := 0#11)
  have hzero : (unpackMantissa b).toNat = 0 ↔ unpackMantissa b = 0#52 :=
    BitVec.toNat_inj (y := 0#52)
  have hunpack : x.toModel.unpack = UnpackedFloat.unpack Format.binary64 b := rfl
  rw [hunpack, Double.ofFloat, ← hmantissa, ← hexponent, ← hsign, ← isNegative_ofBitVec]
  simp only [hlast, hfirst, hzero, UnpackedFloat.unpack]
  split_ifs with hinfinite hnone hsmall hm
  · rfl
  · rfl
  · rw [hm]
    rfl
  · rw [hsmall]
    rfl
  · -- The bit that is not stored is put in front of the mantissa; `ofFloat` adds its weight.
    rw [← toNat_normal]
    rfl

/-- A finite double is a sign, a mantissa and an exponent, and stands for the number that they
make. -/
theorem exactValue_eq {x : Float} (hx : x.isFinite = true) : ∃ negative mantissa exponent,
    Double.ofFloat x = .finite negative mantissa exponent ∧
      exactValue x = signOf negative * (mantissa * 2 ^ exponent) := by
  rw [ofFloat_eq, exactValue]
  have hfinite : x.toModel.unpack.isFinite = true := hx
  cases hunpack : x.toModel.unpack with
  | infinity | notANumber => simp [hunpack, UnpackedFloat.isFinite] at hfinite
  | zero sign => exact ⟨_, _, _, rfl, by simp⟩
  | finite sign mantissa exponent =>
    refine ⟨_, _, _, rfl, ?_⟩
    cases sign <;> simp [isNegative, signOf, Sign.apply]

/-! ### Rounding -/

/-- A whole number is the one to which a number is rounded: none is nearer to it, and of two that
are equally near it is the even one. -/
structure Nearest (q : ℚ) (k : ℤ) : Prop where
  near : ∀ j : ℤ, |q - k| ≤ |q - j|
  even : ∀ j : ℤ, j ≠ k → |q - j| = |q - k| → Even k

namespace Nearest
variable {q : ℚ} {k l : ℤ}

/-- What is at most half away is nearest, if it is even when it is exactly half away. -/
theorem of_half (hnear : |q - k| ≤ 1 / 2) (heven : |q - k| = 1 / 2 → Even k) : Nearest q k := by
  have hfar : ∀ j : ℤ, j ≠ k → 1 ≤ |q - k| + |q - j| := by
    intro j hj
    have hapart : (1 : ℚ) ≤ |(k : ℚ) - j| := by
      exact_mod_cast Int.one_le_abs (sub_ne_zero.mpr hj.symm)
    calc (1 : ℚ) ≤ |(k : ℚ) - j| := hapart
      _ = |(q - j) - (q - k)| := by ring_nf
      _ ≤ |q - j| + |q - k| := abs_sub _ _
      _ = |q - k| + |q - j| := add_comm _ _
  refine ⟨fun j => ?_, fun j hj heq => heven ?_⟩
  · rcases eq_or_ne j k with rfl | hj
    · exact le_rfl
    · linarith [hfar j hj]
  · linarith [hfar j hj]

/-- A number is rounded to one whole number only. -/
theorem eq (hk : Nearest q k) (hl : Nearest q l) : k = l := by
  by_contra hne
  have hsame : |q - k| = |q - l| := le_antisymm (hk.near l) (hl.near k)
  have heven : Even k := hk.even l (Ne.symm hne) hsame.symm
  have heven' : Even l := hl.even k hne hsame
  -- The number is in the middle of the two, and the whole number above the lower is nearer to it.
  wlog hlt : k < l generalizing k l
  · exact this hl hk (Ne.symm hne) hsame.symm heven' heven (by omega)
  have hgap : k + 2 ≤ l := by
    obtain ⟨i, rfl⟩ := heven
    obtain ⟨j, rfl⟩ := heven'
    omega
  have hgap' : (k : ℚ) + 2 ≤ l := by exact_mod_cast hgap
  have hmiddle : q - k = -(q - l) := by
    refine (abs_eq_abs.mp hsame).resolve_left fun h => hne ?_
    exact_mod_cast (sub_right_inj.mp h)
  have hnear := hk.near (k + 1)
  rw [abs_of_nonneg (by linarith : 0 ≤ q - k),
    abs_of_nonneg (by push_cast; linarith : 0 ≤ q - ((k + 1 : ℤ) : ℚ))] at hnear
  push_cast at hnear
  linarith

theorem neg (h : Nearest q k) : Nearest (-q) (-k) := by
  have hdist : ∀ j : ℤ, |-q - j| = |q - (-j : ℤ)| := by
    intro j
    rw [← abs_neg]
    push_cast
    ring_nf
  refine ⟨fun j => ?_, fun j hj heq => ?_⟩
  · rw [hdist, hdist, neg_neg]
    exact h.near (-j)
  · rw [hdist, hdist, neg_neg] at heq
    exact (h.even (-j) (fun h' => hj (by omega)) heq).neg

/-- A number is rounded as the one of the other sign is. -/
theorem signed (h : Nearest q k) (negative : Bool) :
    Nearest (signOf negative * q) (signOf negative * k) := by
  rcases signOf_cases negative with hsign | hsign
  · simpa [hsign] using h
  · simpa [hsign] using h.neg

/-- The whole number below is the nearest one up to half of the way to the next. -/
theorem below {f : ℚ} (hf : 0 ≤ f) (hhalf : f ≤ 1 / 2) (heven : f = 1 / 2 → Even k) :
    Nearest (k + f) k := by
  have hdist : |(k + f : ℚ) - k| = f := by rw [add_sub_cancel_left, abs_of_nonneg hf]
  refine of_half ?_ ?_
  · rwa [hdist]
  · rwa [hdist]

/-- The whole number above is the nearest one from half of the way on. -/
theorem above {f : ℚ} (hf : f ≤ 1) (hhalf : 1 / 2 ≤ f) (heven : f = 1 / 2 → Even (k + 1)) :
    Nearest (k + f) (k + 1 : ℤ) := by
  have hdist : |(k + f : ℚ) - (k + 1 : ℤ)| = 1 - f := by
    rw [Int.cast_add, Int.cast_one, add_sub_add_left_eq_sub, abs_sub_comm,
      abs_of_nonneg (sub_nonneg.mpr hf)]
  refine of_half ?_ fun htie => heven ?_
  · linarith
  · linarith

end Nearest

theorem nearest_roundHalfEven (num : ℕ) {den : ℕ} (hden : 0 < den) :
    Nearest ((num : ℚ) / den) (roundHalfEven num den : ℕ) := by
  have hpos : (0 : ℚ) < den := by exact_mod_cast hden
  let rest : ℚ := (num % den : ℕ) / den
  have hquotient : (num : ℚ) / den = ((num / den : ℕ) : ℤ) + rest := by
    have hsum : (num : ℚ) = den * (num / den : ℕ) + (num % den : ℕ) := by
      exact_mod_cast (Nat.div_add_mod num den).symm
    rw [hsum, add_div, mul_div_cancel_left₀ _ hpos.ne', Int.cast_natCast]
  have hless : rest ≤ 1 := by
    rw [div_le_one hpos]
    exact_mod_cast (Nat.mod_lt num hden).le
  have hlow : rest ≤ 1 / 2 ↔ 2 * (num % den) ≤ den := by
    rw [div_le_iff₀ hpos, ← @Nat.cast_le ℚ]
    push_cast
    constructor <;> intro h <;> linarith
  have hhigh : 1 / 2 ≤ rest ↔ den ≤ 2 * (num % den) := by
    rw [le_div_iff₀ hpos, ← @Nat.cast_le ℚ]
    push_cast
    constructor <;> intro h <;> linarith
  rw [hquotient, roundHalfEven]
  split_ifs with hbelow habove heven
  · refine .below (by positivity) (hlow.mpr hbelow.le) fun htie => ?_
    exact absurd (hhigh.mp htie.ge) (by omega)
  · refine .above hless (hhigh.mpr habove.le) fun htie => ?_
    exact absurd (hlow.mp htie.le) (by omega)
  · refine .below (by positivity) (hlow.mpr (not_lt.mp habove)) fun _ => ?_
    exact_mod_cast Nat.even_iff.mpr heven
  · refine .above hless (hhigh.mpr (not_lt.mp hbelow)) fun _ => ?_
    exact_mod_cast Nat.even_add_one.mpr fun h => heven (Nat.even_iff.mp h)

/-- The hundredths of a number are those nearest to it. -/
theorem hundredths_nearest (mantissa : ℕ) (exponent : ℤ) :
    Nearest (100 * (mantissa * 2 ^ exponent)) (hundredths mantissa exponent : ℕ) := by
  have hpower : (2 : ℚ) ^ exponent = 2 ^ exponent.toNat / 2 ^ (-exponent).toNat := by
    rw [← zpow_natCast, ← zpow_natCast, ← zpow_sub₀ two_ne_zero, Int.toNat_sub_toNat_neg]
  have hquotient : (100 : ℚ) * (mantissa * 2 ^ exponent) =
      ((mantissa * 100 * 2 ^ exponent.toNat : ℕ) : ℚ) / (2 ^ (-exponent).toNat : ℕ) := by
    rw [hpower]
    push_cast
    ring
  rw [hquotient]
  exact nearest_roundHalfEven _ (Nat.pow_pos two_pos)

/-- A number is rounded to a hundredth. -/
def RoundsTo (q r : ℚ) : Prop := ∃ k : ℤ, Nearest (100 * q) k ∧ r = k / 100

theorem RoundsTo.eq {q r s : ℚ} (hr : RoundsTo q r) (hs : RoundsTo q s) : r = s := by
  obtain ⟨k, hk, rfl⟩ := hr
  obtain ⟨l, hl, rfl⟩ := hs
  rw [hk.eq hl]

/-- A finite double is rounded to its hundredths. -/
theorem roundsTo_hundredths {x : Float} (hx : x.isFinite = true) :
    ∃ negative mantissa exponent, Double.ofFloat x = .finite negative mantissa exponent ∧
      RoundsTo (exactValue x) (signOf negative * (hundredths mantissa exponent / 100)) := by
  obtain ⟨negative, mantissa, exponent, hparts, hvalue⟩ := exactValue_eq hx
  have hnearest := (hundredths_nearest mantissa exponent).signed negative
  rw [mul_left_comm, ← hvalue] at hnearest
  refine ⟨negative, mantissa, exponent, hparts, _, hnearest, ?_⟩
  push_cast
  ring

end ScriptEngine.Decimal
