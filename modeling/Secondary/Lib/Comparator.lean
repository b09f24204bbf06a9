import Mathlib.Tactic.Common
import Mathlib.Data.List.Lex
import Mathlib.Data.List.TakeWhile
import Mathlib.Data.Prod.Lex

/-!
# Comparator — three-way comparators in the style of `strcmp`

A comparator returns an integer of which only the sign is read.  `PreorderCmp D cmp` says that on
the values that satisfy `D` the sign of `cmp` is a total preorder.  `Cut c l` says that a
comparison `c` against a fixed bound splits the list `l`: the elements that compare below the
bound all stand before those that do not.
-/

namespace Secondary
namespace Lib

variable {α β : Type}

/-- On the domain `D`, the sign of `cmp` is a total preorder. -/
structure PreorderCmp (D : α → Prop) (cmp : α → α → Int) : Prop where
  swap : ∀ {a b}, D a → D b → (cmp a b < 0 ↔ 0 < cmp b a)
  trans : ∀ {a b c}, D a → D b → D c → cmp a b ≤ 0 → cmp b c ≤ 0 → cmp a c ≤ 0

namespace PreorderCmp

variable {D : α → Prop} {cmp : α → α → Int}

theorem refl (h : PreorderCmp D cmp) {a : α} (ha : D a) : cmp a a = 0 := by
  have := h.swap ha ha
  omega

theorem eq_comm (h : PreorderCmp D cmp) {a b : α} (ha : D a) (hb : D b) :
    cmp a b = 0 ↔ cmp b a = 0 := by
  have h₁ := h.swap ha hb
  have h₂ := h.swap hb ha
  omega

theorem lt_trans (h : PreorderCmp D cmp) {a b c : α} (ha : D a) (hb : D b) (hc : D c)
    (hab : cmp a b < 0) (hbc : cmp b c ≤ 0) : cmp a c < 0 := by
  by_contra hac
  -- Otherwise `c ≤ a`, and with `b ≤ c` this gives `b ≤ a`.
  have hca : cmp c a ≤ 0 := by
    have := h.swap ha hc
    have := h.swap hc ha
    omega
  have hba : cmp b a ≤ 0 := h.trans hb hc ha hbc hca
  have := h.swap ha hb
  omega

theorem lt_trans' (h : PreorderCmp D cmp) {a b c : α} (ha : D a) (hb : D b) (hc : D c)
    (hab : cmp a b ≤ 0) (hbc : cmp b c < 0) : cmp a c < 0 := by
  by_contra hac
  have hca : cmp c a ≤ 0 := by
    have := h.swap ha hc
    have := h.swap hc ha
    omega
  have hcb : cmp c b ≤ 0 := h.trans hc ha hb hca hab
  have := h.swap hb hc
  omega

/-- Comparing against two values of one class gives the same sign. -/
theorem lt_congr_right (h : PreorderCmp D cmp) {a b c : α} (ha : D a) (hb : D b) (hc : D c)
    (hbc : cmp b c = 0) : cmp a b < 0 ↔ cmp a c < 0 := by
  have hcb : cmp c b = 0 := (h.eq_comm hb hc).1 hbc
  constructor
  · intro hab
    exact h.lt_trans ha hb hc hab (by omega)
  · intro hac
    exact h.lt_trans ha hc hb hac (by omega)

theorem eq_congr_right (h : PreorderCmp D cmp) {a b c : α} (ha : D a) (hb : D b) (hc : D c)
    (hbc : cmp b c = 0) : cmp a b = 0 ↔ cmp a c = 0 := by
  have hlt := h.lt_congr_right ha hb hc hbc
  have hgt : cmp b a < 0 ↔ cmp c a < 0 := by
    have hcb : cmp c b = 0 := (h.eq_comm hb hc).1 hbc
    constructor
    · intro hba
      exact h.lt_trans' hc hb ha (by omega) hba
    · intro hca
      exact h.lt_trans' hb hc ha (by omega) hca
  have h₁ := h.swap hb ha
  have h₂ := h.swap hc ha
  omega

theorem eq_trans (h : PreorderCmp D cmp) {a b c : α} (ha : D a) (hb : D b) (hc : D c)
    (hab : cmp a b = 0) (hbc : cmp b c = 0) : cmp a c = 0 :=
  (h.eq_congr_right ha hb hc hbc).1 hab

end PreorderCmp

/-! ## Comparators that follow a linear order -/

section Signs

variable {γ : Type} [LinearOrder γ]

/-- The sign of `c` is that of the comparison of `x` with `y`. -/
def Signs (c : Int) (x y : γ) : Prop :=
  (c < 0 ↔ x < y) ∧ (c = 0 ↔ x = y)

theorem Signs.pos_iff {c : Int} {x y : γ} (h : Signs c x y) : 0 < c ↔ y < x := by
  obtain ⟨hlt, heq⟩ := h
  constructor
  · intro hc
    have hnlt : ¬ x < y := fun hxy => Int.lt_asymm hc (hlt.2 hxy)
    have hne : x ≠ y := fun hxy => Int.ne_of_lt hc (heq.2 hxy).symm
    exact lt_of_le_of_ne (not_lt.1 hnlt) hne.symm
  · intro hyx
    rcases Int.lt_trichotomy c 0 with hc | hc | hc
    · exact absurd (hlt.1 hc) (lt_asymm hyx)
    · exact absurd (heq.1 hc) (ne_of_gt hyx)
    · exact hc

theorem Signs.le_zero_iff {c : Int} {x y : γ} (h : Signs c x y) : c ≤ 0 ↔ x ≤ y := by
  rw [← Int.not_lt, h.pos_iff, not_lt]

/-- A comparator that follows a linear order through `f` is a total preorder. -/
theorem PreorderCmp.of_signs {D : α → Prop} {cmp : α → α → Int} (f : α → γ)
    (h : ∀ a b, D a → D b → Signs (cmp a b) (f a) (f b)) : PreorderCmp D cmp where
  swap := by
    intro a b ha hb
    rw [(h a b ha hb).1, (h b a hb ha).pos_iff]
  trans := by
    intro a b c ha hb hc hab hbc
    rw [(h a c ha hc).le_zero_iff]
    exact le_trans ((h a b ha hb).le_zero_iff.1 hab) ((h b c hb hc).le_zero_iff.1 hbc)

/-- Comparing the first components decides, unless they are equal. -/
theorem Signs.cons {c d : Int} {x y : γ} {xs ys : List γ} (hc : Signs c x y)
    (hd : Signs d xs ys) : Signs (if c ≠ 0 then c else d) (x :: xs) (y :: ys) := by
  by_cases hzero : c = 0
  · have hxy : x = y := hc.2.1 hzero
    subst hxy
    refine ⟨?_, ?_⟩
    · simp [hzero, hd.1]
    · simp [hzero, hd.2]
  · have hxy : x ≠ y := fun h => hzero (hc.2.2 h)
    refine ⟨?_, ?_⟩
    · simp [hzero, hc.1, List.cons_lt_cons_iff, hxy]
    · simp [hzero, hxy]

theorem signs_of_lt {lt lt' : Bool} {x y : γ} (h : lt = true ↔ x < y) (h' : lt' = true ↔ y < x) :
    Signs (if lt then -1 else if lt' then 1 else 0) x y := by
  rcases lt_trichotomy x y with hxy | hxy | hxy
  · have hlt : lt = true := h.2 hxy
    simp [Signs, hlt, hxy, ne_of_lt hxy]
  · have hlt : lt = false := by
      rw [← Bool.not_eq_true, h, hxy]
      exact lt_irrefl y
    have hlt' : lt' = false := by
      rw [← Bool.not_eq_true, h', hxy]
      exact lt_irrefl y
    simp [Signs, hlt, hlt', hxy]
  · have hlt : lt = false := by
      rw [← Bool.not_eq_true, h]
      exact lt_asymm hxy
    have hlt' : lt' = true := h'.2 hxy
    simp [Signs, hlt, hlt', lt_asymm hxy, ne_of_gt hxy]

end Signs

/-! ## Splitting a sorted list at a bound -/

/-- The elements of `l` on which `p` holds form an initial segment. -/
def Cut (p : α → Bool) (l : List α) : Prop :=
  l.Pairwise fun a b => p b = true → p a = true

theorem Cut.tail {p : α → Bool} {a : α} {l : List α} (h : Cut p (a :: l)) : Cut p l :=
  (List.pairwise_cons.1 h).2

/-- Past the first element on which `p` fails, `p` fails everywhere. -/
theorem Cut.dropWhile_eq_false {p : α → Bool} :
    ∀ {l : List α}, Cut p l → ∀ b ∈ l.dropWhile p, p b = false
  | [], _, b, hb => by simp at hb
  | a :: l, h, b, hb => by
      cases hpa : p a with
      | true =>
          rw [List.dropWhile_cons_of_pos hpa] at hb
          exact Cut.dropWhile_eq_false h.tail b hb
      | false =>
          rw [List.dropWhile_cons_of_neg (by simp [hpa])] at hb
          rcases List.mem_cons.1 hb with rfl | hb
          · exact hpa
          · have hab := (List.pairwise_cons.1 h).1 b hb
            cases hpb : p b with
            | false => rfl
            | true => simp [hab hpb] at hpa

/-- On a list that `p` cuts, taking while `p` holds is filtering. -/
theorem Cut.takeWhile_eq_filter {p : α → Bool} :
    ∀ {l : List α}, Cut p l → l.takeWhile p = l.filter p
  | [], _ => rfl
  | a :: l, h => by
      cases hpa : p a with
      | true => simp [hpa, Cut.takeWhile_eq_filter h.tail]
      | false =>
          have hnil : l.filter p = [] := by
            refine List.filter_eq_nil_iff.2 ?_
            intro b hb hpb
            have := (List.pairwise_cons.1 h).1 b hb hpb
            simp [hpa] at this
          simp [hpa, hnil]

theorem Cut.dropWhile_eq_filter {p : α → Bool} :
    ∀ {l : List α}, Cut p l → l.dropWhile p = l.filter (fun a => !p a)
  | [], _ => rfl
  | a :: l, h => by
      cases hpa : p a with
      | true => simp [hpa, Cut.dropWhile_eq_filter h.tail]
      | false =>
          have hall : l.filter (fun a => !p a) = l := by
            refine List.filter_eq_self.2 ?_
            intro b hb
            have hab := (List.pairwise_cons.1 h).1 b hb
            cases hpb : p b with
            | false => rfl
            | true => simp [hab hpb] at hpa
          simp [hpa, hall]

end Lib
end Secondary
