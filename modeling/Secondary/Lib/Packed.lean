import Mathlib.Tactic.Common

/-!
# Packed — a table of small numbers as one number

An entry of a packed table is read by a shift and a remainder, which take the same time for every
entry.
-/

namespace Secondary
namespace Lib

/-- The entries, nine bits each. -/
def pack (t : List Nat) : Nat :=
  t.foldr (fun v r => v + 512 * r) 0

def look (p i : Nat) : Nat :=
  p >>> (9 * i) % 512

theorem look_pack {t : List Nat} (ht : ∀ v ∈ t, v < 512) (i : Nat) :
    look (pack t) i = t.getD i 0 := by
  induction t generalizing i with
  | nil => simp [look, pack]
  | cons v t ih =>
      rw [List.forall_mem_cons] at ht
      have hpack : pack (v :: t) = v + 512 * pack t := rfl
      cases i with
      | zero =>
          rw [look, hpack, Nat.mul_zero, Nat.shiftRight_zero, Nat.add_mul_mod_self_left,
            Nat.mod_eq_of_lt ht.1]
          rfl
      | succ i =>
          have hshift : (v + 512 * pack t) >>> 9 = pack t := by
            rw [Nat.shiftRight_eq_div_pow]
            have := ht.1
            omega
          rw [look, hpack, Nat.mul_succ, Nat.add_comm (9 * i), Nat.shiftRight_add, hshift]
          exact ih ht.2 i

end Lib
end Secondary
