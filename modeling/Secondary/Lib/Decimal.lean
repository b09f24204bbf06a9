import Mathlib.Data.Nat.Digits.Lemmas

/-!
# Decimal — decimal numerals as bytes

`decimal` writes a natural number and `signedDecimal` an integer; `decimalValue` reads digits back.
-/

namespace Secondary
namespace Lib

def isDigit (b : UInt8) : Bool :=
  decide (48 ≤ b ∧ b ≤ 57)

/-- The number that the digits say. -/
def decimalValue (bs : List UInt8) : Nat :=
  bs.foldl (fun n b => 10 * n + (b.toNat - 48)) 0

def digitByte (d : Nat) : UInt8 :=
  UInt8.ofNat (48 + d)

def decimal (n : Nat) : List UInt8 :=
  if n = 0 then [48] else (Nat.digits 10 n).reverse.map digitByte

def signedDecimal (i : Int) : List UInt8 :=
  if i < 0 then 45 :: decimal i.natAbs else decimal i.natAbs

theorem digitByte_toNat {d : Nat} (h : d < 10) : (digitByte d).toNat = 48 + d := by
  rw [digitByte, UInt8.toNat_ofNat']
  omega

theorem isDigit_digitByte {d : Nat} (h : d < 10) : isDigit (digitByte d) = true := by
  have hval := digitByte_toNat h
  rw [isDigit, decide_eq_true_eq, UInt8.le_iff_toNat_le, UInt8.le_iff_toNat_le, hval]
  exact ⟨Nat.le_add_right 48 d, show 48 + d ≤ 57 by omega⟩

theorem decimal_ne_nil (n : Nat) : decimal n ≠ [] := by
  by_cases h : n = 0
  · simp [decimal, h]
  · simp [decimal, h, Nat.digits_ne_nil_iff_ne_zero]

theorem isDigit_decimal (n : Nat) : ∀ b ∈ decimal n, isDigit b = true := by
  by_cases h : n = 0
  · simp [decimal, h]
    decide
  · intro b hb
    rw [decimal, if_neg h, List.mem_map] at hb
    obtain ⟨d, hd, rfl⟩ := hb
    exact isDigit_digitByte (Nat.digits_lt_base (by decide) (List.mem_reverse.1 hd))

/-- What is written is read back. -/
theorem decimalValue_decimal (n : Nat) : decimalValue (decimal n) = n := by
  by_cases h : n = 0
  · simp [decimal, h, decimalValue]
  · have hdigits : ∀ {ds : List Nat}, (∀ d ∈ ds, d < 10) →
        decimalValue (ds.reverse.map digitByte) = Nat.ofDigits 10 ds := by
      intro ds hds
      induction ds with
      | nil => rfl
      | cons d ds ih =>
          have hd := digitByte_toNat (hds d (by simp))
          have ih := ih fun e he => hds e (List.mem_cons_of_mem _ he)
          rw [decimalValue] at ih ⊢
          rw [List.reverse_cons, List.map_append, List.foldl_append, ih, Nat.ofDigits_cons]
          simp only [List.map_cons, List.map_nil, List.foldl_cons, List.foldl_nil, hd]
          omega
    rw [decimal, if_neg h, hdigits fun d hd => Nat.digits_lt_base (by decide) hd]
    exact Nat.ofDigits_digits 10 n

end Lib
end Secondary
