import Mathlib.Algebra.Group.Nat.Defs
import Mathlib.Tactic.Common

/-!
# Float — converting between IEEE-754 `binary32` and `binary64`

The numbers are given by their bits, as naturals.  Widening is exact; narrowing rounds to nearest,
ties to even, so it gives back every number that was widened.
-/

namespace Secondary
namespace Lib

/-- The bits of the `binary64` number equal to a `binary32` number.  A NaN becomes a quiet NaN. -/
def widen (bits : Nat) : Nat :=
  let sign := bits / 2 ^ 31
  let exp := bits / 2 ^ 23 % 2 ^ 8
  let frac := bits % 2 ^ 23
  if exp = 255 then
    sign * 2 ^ 63 + 2047 * 2 ^ 52 +
      (if frac = 0 then 0 else if frac < 2 ^ 22 then frac + 2 ^ 22 else frac) * 2 ^ 29
  else if exp = 0 then
    -- A subnormal number is normal in the wider format.
    if frac = 0 then
      sign * 2 ^ 63
    else
      sign * 2 ^ 63 + (874 + frac.log2) * 2 ^ 52 + (frac - 2 ^ frac.log2) * 2 ^ (52 - frac.log2)
  else
    sign * 2 ^ 63 + (exp + 896) * 2 ^ 52 + frac * 2 ^ 29

/-- `n / 2 ^ k`, rounded to nearest, ties to even. -/
def roundShift (n k : Nat) : Nat :=
  let q := n / 2 ^ k
  let r := n % 2 ^ k
  if 2 ^ k < 2 * r ∨ (2 * r = 2 ^ k ∧ q % 2 = 1) then q + 1 else q

/-- The bits of the `binary32` number nearest to a `binary64` number. -/
def narrow (bits : Nat) : Nat :=
  let sign := bits / 2 ^ 63
  let exp := bits / 2 ^ 52 % 2 ^ 11
  let frac := bits % 2 ^ 52
  if exp = 2047 then
    if frac = 0 then
      sign * 2 ^ 31 + 255 * 2 ^ 23
    else
      sign * 2 ^ 31 + 255 * 2 ^ 23 + 2 ^ 22 + frac / 2 ^ 29 % 2 ^ 22
  else
    let significand := if exp = 0 then frac else 2 ^ 52 + frac
    let magnitude :=
      if 897 ≤ exp then
        (exp - 897) * 2 ^ 23 + roundShift significand 29
      else
        roundShift significand (29 + (897 - max exp 1))
    -- What is too large rounds to infinity.
    sign * 2 ^ 31 + min magnitude (255 * 2 ^ 23)

/-! ## Rounding -/

/-- Nothing is lost in shifting back what has been shifted. -/
theorem roundShift_mul (n k : Nat) : roundShift (n * 2 ^ k) k = n := by
  have hpos : 0 < 2 ^ k := Nat.two_pow_pos k
  have hmod : n * 2 ^ k % 2 ^ k = 0 := Nat.mul_mod_left n (2 ^ k)
  have hdiv : n * 2 ^ k / 2 ^ k = n := Nat.mul_div_cancel n hpos
  have hno : ¬(2 ^ k < 2 * 0 ∨ (2 * 0 = 2 ^ k ∧ n % 2 = 1)) := by
    omega
  simp only [roundShift, hmod, hdiv]
  rw [if_neg hno]

theorem roundShift_zero (k : Nat) : roundShift 0 k = 0 := by
  simpa using roundShift_mul 0 k

/-! ## Fields -/

section Fields

variable (sign : Nat) {exp frac : Nat}

theorem fields32 (hexp : exp < 2 ^ 8) (hfrac : frac < 2 ^ 23) :
    (sign * 2 ^ 31 + exp * 2 ^ 23 + frac) / 2 ^ 31 = sign ∧
      (sign * 2 ^ 31 + exp * 2 ^ 23 + frac) / 2 ^ 23 % 2 ^ 8 = exp ∧
      (sign * 2 ^ 31 + exp * 2 ^ 23 + frac) % 2 ^ 23 = frac := by
  omega

theorem fields64 (hexp : exp < 2 ^ 11) (hfrac : frac < 2 ^ 52) :
    (sign * 2 ^ 63 + exp * 2 ^ 52 + frac) / 2 ^ 63 = sign ∧
      (sign * 2 ^ 63 + exp * 2 ^ 52 + frac) / 2 ^ 52 % 2 ^ 11 = exp ∧
      (sign * 2 ^ 63 + exp * 2 ^ 52 + frac) % 2 ^ 52 = frac := by
  omega

/-- The significand of a subnormal number, shifted to the hidden bit. -/
theorem normalize {frac : Nat} (hpos : frac ≠ 0) (hfrac : frac < 2 ^ 23) :
    frac.log2 ≤ 22 ∧ (frac - 2 ^ frac.log2) * 2 ^ (52 - frac.log2) < 2 ^ 52 ∧
      2 ^ 52 + (frac - 2 ^ frac.log2) * 2 ^ (52 - frac.log2) = frac * 2 ^ (52 - frac.log2) := by
  have hlow : 2 ^ frac.log2 ≤ frac := Nat.log2_self_le hpos
  have hhigh : frac < 2 ^ (frac.log2 + 1) := Nat.lt_log2_self
  have hlog : frac.log2 ≤ 22 := by
    have : frac.log2 < 23 := (Nat.log2_lt hpos).2 hfrac
    omega
  have hsplit : 2 ^ frac.log2 * 2 ^ (52 - frac.log2) = 2 ^ 52 := by
    rw [← Nat.pow_add]
    congr 1
    omega
  have hsum : 2 ^ 52 + (frac - 2 ^ frac.log2) * 2 ^ (52 - frac.log2) =
      frac * 2 ^ (52 - frac.log2) := by
    rw [← hsplit, ← Nat.add_mul]
    congr 1
    omega
  refine ⟨hlog, ?_, hsum⟩
  have hlt : (frac - 2 ^ frac.log2) * 2 ^ (52 - frac.log2) <
      2 ^ frac.log2 * 2 ^ (52 - frac.log2) := by
    refine Nat.mul_lt_mul_of_pos_right ?_ (Nat.two_pow_pos _)
    rw [Nat.pow_succ] at hhigh
    omega
  rwa [hsplit] at hlt

/-! ## There and back, by the kind of number -/

theorem narrow_widen_infinite (hexp : exp = 255) (hfrac : frac = 0) :
    narrow (widen (sign * 2 ^ 31 + exp * 2 ^ 23 + frac)) = sign * 2 ^ 31 + exp * 2 ^ 23 + frac := by
  obtain ⟨h₁, h₂, h₃⟩ :=
    fields32 sign (show exp < 2 ^ 8 by omega) (show frac < 2 ^ 23 by omega)
  have hwiden : widen (sign * 2 ^ 31 + exp * 2 ^ 23 + frac) =
      sign * 2 ^ 63 + 2047 * 2 ^ 52 + frac := by
    simp only [widen, h₁, h₂, h₃, if_pos hexp, if_pos hfrac]
    omega
  obtain ⟨h₁, h₂, h₃⟩ :=
    fields64 sign (show 2047 < 2 ^ 11 by omega) (show frac < 2 ^ 52 by omega)
  rw [hwiden]
  simp only [narrow, h₁, h₂, h₃, if_true, if_pos hfrac]
  omega

theorem narrow_widen_zero (hexp : exp = 0) (hfrac : frac = 0) :
    narrow (widen (sign * 2 ^ 31 + exp * 2 ^ 23 + frac)) = sign * 2 ^ 31 + exp * 2 ^ 23 + frac := by
  obtain ⟨h₁, h₂, h₃⟩ :=
    fields32 sign (show exp < 2 ^ 8 by omega) (show frac < 2 ^ 23 by omega)
  have hwiden : widen (sign * 2 ^ 31 + exp * 2 ^ 23 + frac) =
      sign * 2 ^ 63 + exp * 2 ^ 52 + frac := by
    have hne : ¬exp = 255 := by omega
    simp only [widen, h₁, h₂, h₃, if_neg hne, if_pos hexp, if_pos hfrac]
    omega
  obtain ⟨h₁, h₂, h₃⟩ :=
    fields64 sign (show exp < 2 ^ 11 by omega) (show frac < 2 ^ 52 by omega)
  rw [hwiden]
  have hne : ¬exp = 2047 := by omega
  have hlow : ¬897 ≤ exp := by omega
  simp only [narrow, h₁, h₂, h₃, if_neg hne, if_neg hlow, if_pos hexp]
  rw [hfrac, roundShift_zero, Nat.zero_min]
  omega

theorem narrow_widen_subnormal (hexp : exp = 0) (hpos : frac ≠ 0) (hfrac : frac < 2 ^ 23) :
    narrow (widen (sign * 2 ^ 31 + exp * 2 ^ 23 + frac)) = sign * 2 ^ 31 + exp * 2 ^ 23 + frac := by
  obtain ⟨h₁, h₂, h₃⟩ := fields32 sign (show exp < 2 ^ 8 by omega) hfrac
  obtain ⟨hlog, hlt, hsum⟩ := normalize hpos hfrac
  have hwiden : widen (sign * 2 ^ 31 + exp * 2 ^ 23 + frac) =
      sign * 2 ^ 63 + (874 + frac.log2) * 2 ^ 52 +
        (frac - 2 ^ frac.log2) * 2 ^ (52 - frac.log2) := by
    have hne : ¬exp = 255 := by omega
    simp only [widen, h₁, h₂, h₃, if_neg hne, if_pos hexp, if_neg hpos]
  obtain ⟨h₁, h₂, h₃⟩ := fields64 sign (show 874 + frac.log2 < 2 ^ 11 by omega) hlt
  rw [hwiden]
  have hmax : 29 + (897 - max (874 + frac.log2) 1) = 52 - frac.log2 := by omega
  have hne : ¬874 + frac.log2 = 2047 := by omega
  have hne' : ¬874 + frac.log2 = 0 := by omega
  have hlow : ¬897 ≤ 874 + frac.log2 := by omega
  simp only [narrow, h₁, h₂, h₃, if_neg hne, if_neg hne', if_neg hlow, hmax, hsum, roundShift_mul]
  rw [Nat.min_eq_left (by omega)]
  omega

theorem narrow_widen_normal (hpos : exp ≠ 0) (hexp : exp < 255) (hfrac : frac < 2 ^ 23) :
    narrow (widen (sign * 2 ^ 31 + exp * 2 ^ 23 + frac)) = sign * 2 ^ 31 + exp * 2 ^ 23 + frac := by
  obtain ⟨h₁, h₂, h₃⟩ := fields32 sign (show exp < 2 ^ 8 by omega) hfrac
  have hwiden : widen (sign * 2 ^ 31 + exp * 2 ^ 23 + frac) =
      sign * 2 ^ 63 + (exp + 896) * 2 ^ 52 + frac * 2 ^ 29 := by
    have hne : ¬exp = 255 := by omega
    simp only [widen, h₁, h₂, h₃, if_neg hne, if_neg hpos]
  obtain ⟨h₁, h₂, h₃⟩ := fields64 sign (show exp + 896 < 2 ^ 11 by omega)
    (show frac * 2 ^ 29 < 2 ^ 52 by omega)
  rw [hwiden]
  have hne : ¬exp + 896 = 2047 := by omega
  have hne' : ¬exp + 896 = 0 := by omega
  have hhigh : 897 ≤ exp + 896 := by omega
  have hshift : 2 ^ 52 + frac * 2 ^ 29 = (2 ^ 23 + frac) * 2 ^ 29 := by omega
  have hmagnitude : (exp + 896 - 897) * 2 ^ 23 + (2 ^ 23 + frac) = exp * 2 ^ 23 + frac := by omega
  simp only [narrow, h₁, h₂, h₃, if_neg hne, if_neg hne', if_pos hhigh]
  rw [hshift, roundShift_mul, hmagnitude, Nat.min_eq_left (by omega), Nat.add_assoc]

/-- A quiet NaN keeps its payload. -/
theorem narrow_widen_quiet (hexp : exp = 255) (hquiet : 2 ^ 22 ≤ frac) (hfrac : frac < 2 ^ 23) :
    narrow (widen (sign * 2 ^ 31 + exp * 2 ^ 23 + frac)) = sign * 2 ^ 31 + exp * 2 ^ 23 + frac := by
  obtain ⟨h₁, h₂, h₃⟩ := fields32 sign (show exp < 2 ^ 8 by omega) hfrac
  have hne : ¬frac = 0 := by omega
  have hnot : ¬frac < 2 ^ 22 := by omega
  have hwiden : widen (sign * 2 ^ 31 + exp * 2 ^ 23 + frac) =
      sign * 2 ^ 63 + 2047 * 2 ^ 52 + frac * 2 ^ 29 := by
    simp only [widen, h₁, h₂, h₃, if_pos hexp, if_neg hne, if_neg hnot]
  obtain ⟨h₁, h₂, h₃⟩ :=
    fields64 sign (show 2047 < 2 ^ 11 by omega) (show frac * 2 ^ 29 < 2 ^ 52 by omega)
  have hne' : ¬frac * 2 ^ 29 = 0 := by omega
  rw [hwiden]
  simp only [narrow, h₁, h₂, h₃, if_true, if_neg hne']
  omega

end Fields

/-- Numbers come back from the wider format as they were. -/
theorem narrow_widen {bits : Nat} (hnum : bits % 2 ^ 31 ≤ 255 * 2 ^ 23) :
    narrow (widen bits) = bits := by
  obtain ⟨sign, exp, frac, hexp, hfrac, rfl⟩ : ∃ sign exp frac, exp < 2 ^ 8 ∧ frac < 2 ^ 23 ∧
      bits = sign * 2 ^ 31 + exp * 2 ^ 23 + frac :=
    ⟨bits / 2 ^ 31, bits / 2 ^ 23 % 2 ^ 8, bits % 2 ^ 23, by omega, by omega, by omega⟩
  by_cases hinf : exp = 255
  · exact narrow_widen_infinite sign hinf (by omega)
  · by_cases hzero : exp = 0
    · by_cases hfrac0 : frac = 0
      · exact narrow_widen_zero sign hzero hfrac0
      · exact narrow_widen_subnormal sign hzero hfrac0 hfrac
    · exact narrow_widen_normal sign hzero (by omega) hfrac

/-- What was narrowed comes back from the wider format as it was, a NaN too. -/
theorem narrow_widen_narrow (bits : Nat) : narrow (widen (narrow bits)) = narrow bits := by
  by_cases hnan : bits / 2 ^ 52 % 2 ^ 11 = 2047 ∧ bits % 2 ^ 52 ≠ 0
  · -- Narrowing a NaN makes it quiet.
    obtain ⟨hexp, hfrac⟩ := hnan
    have hnarrow : narrow bits =
        bits / 2 ^ 63 * 2 ^ 31 + 255 * 2 ^ 23 + (2 ^ 22 + bits % 2 ^ 52 / 2 ^ 29 % 2 ^ 22) := by
      simp only [narrow, if_pos hexp, if_neg hfrac]
      omega
    rw [hnarrow]
    exact narrow_widen_quiet _ rfl (by omega) (by omega)
  · obtain ⟨sign, magnitude, hle, hnarrow⟩ : ∃ sign magnitude, magnitude ≤ 255 * 2 ^ 23 ∧
        narrow bits = sign * 2 ^ 31 + magnitude := by
      by_cases hexp : bits / 2 ^ 52 % 2 ^ 11 = 2047
      · have hfrac : bits % 2 ^ 52 = 0 := by
          by_contra h
          exact hnan ⟨hexp, h⟩
        exact ⟨bits / 2 ^ 63, 255 * 2 ^ 23, Nat.le_refl _, by
          simp only [narrow, if_pos hexp, if_pos hfrac]⟩
      · simp only [narrow, if_neg hexp]
        exact ⟨bits / 2 ^ 63, _, Nat.min_le_right _ _, rfl⟩
    rw [hnarrow]
    exact narrow_widen (by omega)

/-- What is narrowed fits in 32 bits. -/
theorem narrow_lt {bits : Nat} (hbits : bits < 2 ^ 64) : narrow bits < 2 ^ 32 := by
  have hsign : bits / 2 ^ 63 < 2 := by omega
  simp only [narrow]
  split_ifs <;> omega

/-- What is widened fits in 64 bits. -/
theorem widen_lt {bits : Nat} (hbits : bits < 2 ^ 32) : widen bits < 2 ^ 64 := by
  obtain ⟨sign, exp, frac, hsign, hexp, hfrac, rfl⟩ : ∃ sign exp frac, sign < 2 ∧ exp < 2 ^ 8 ∧
      frac < 2 ^ 23 ∧ bits = sign * 2 ^ 31 + exp * 2 ^ 23 + frac :=
    ⟨bits / 2 ^ 31, bits / 2 ^ 23 % 2 ^ 8, bits % 2 ^ 23, by omega, by omega, by omega, by omega⟩
  obtain ⟨h₁, h₂, h₃⟩ := fields32 sign hexp hfrac
  clear hbits
  simp only [widen, h₁, h₂, h₃]
  split_ifs with hinf hnan hquiet hzero hfrac0
  · omega
  · omega
  · omega
  · omega
  · obtain ⟨hlog, hlt, _⟩ := normalize hfrac0 hfrac
    omega
  · omega

/-! ## Integers -/

/-- The integer part of a `binary64` number, toward zero.  An infinity and a NaN have none. -/
def truncate (bits : Nat) : Option Int :=
  let exp := bits / 2 ^ 52 % 2 ^ 11
  let frac := bits % 2 ^ 52
  if exp = 2047 then
    none
  else
    -- A subnormal number has no leading one.
    let significand : Nat := if exp = 0 then frac else 2 ^ 52 + frac
    let magnitude : Nat :=
      if 1075 ≤ exp then
        significand * 2 ^ (exp - 1075)
      else
        significand / 2 ^ (1075 - max exp 1)
    some (if bits / 2 ^ 63 % 2 = 1 then -(magnitude : Int) else magnitude)

/-- The bits of the floating-point number nearest to an integer, ties to even. -/
def ofInteger (expBits fracBits : Nat) (i : Int) : Nat :=
  let sign := if i < 0 then 2 ^ (expBits + fracBits) else 0
  let n := i.natAbs
  if n = 0 then
    0
  else
    -- The significand with its leading one; where it rounds up to the next power of two, the sum
    -- carries into the exponent.
    let significand :=
      if n.log2 ≤ fracBits then n * 2 ^ (fracBits - n.log2) else roundShift n (n.log2 - fracBits)
    sign + (2 ^ (expBits - 1) - 2 + n.log2) * 2 ^ fracBits + significand

example : ofInteger 11 52 (-3) = 0xc008000000000000 := by decide +kernel

/-- 2^24 + 1 is half-way between two numbers. -/
example : ofInteger 8 23 16777217 = 0x4b800000 := by decide +kernel

example : truncate 0xc00921fb54442d18 = some (-3) := by decide +kernel

end Lib
end Secondary
