import Mathlib.Data.List.Lex
import Mathlib.Order.Lattice

/-!
# Interval — intervals of a linear order, and of tuples by their first columns

An interval has a closed or open end on each side.  Tuples are ordered lexicographically, and a
tuple is in the `span` of a list of intervals when its first columns are not below the tuple of the
lower ends and not above the tuple of the upper ends.  Where all intervals but the last are points,
that is the same as each column being in its interval.
-/

namespace Secondary
namespace Lib

universe u

variable {α : Type u}

structure LexInterval (α : Type u) where
  lo : α
  hi : α
  loOpen : Bool
  hiOpen : Bool

namespace LexInterval

section Order

variable [LinearOrder α]

def Below (i : LexInterval α) (x : α) : Prop :=
  x < i.lo ∨ (x = i.lo ∧ i.loOpen = true)

def Above (i : LexInterval α) (x : α) : Prop :=
  i.hi < x ∨ (x = i.hi ∧ i.hiOpen = true)

def Holds (i : LexInterval α) (x : α) : Prop :=
  ¬i.Below x ∧ ¬i.Above x

theorem Below.mono {i : LexInterval α} {x y : α} (hxy : x ≤ y) (h : i.Below y) : i.Below x := by
  rcases h with h | ⟨rfl, ho⟩
  · exact Or.inl (lt_of_le_of_lt hxy h)
  · rcases lt_or_eq_of_le hxy with hlt | rfl
    · exact Or.inl hlt
    · exact Or.inr ⟨rfl, ho⟩

theorem Above.mono {i : LexInterval α} {x y : α} (hxy : x ≤ y) (h : i.Above x) : i.Above y := by
  rcases h with h | ⟨rfl, ho⟩
  · exact Or.inl (lt_of_lt_of_le h hxy)
  · rcases lt_or_eq_of_le hxy with hlt | rfl
    · exact Or.inl hlt
    · exact Or.inr ⟨rfl, ho⟩

end Order

/-- The interval of one value. -/
def point (a : α) : LexInterval α where
  lo := a
  hi := a
  loOpen := false
  hiOpen := false

theorem holds_point [LinearOrder α] {a x : α} : (point a).Holds x ↔ x = a := by
  simp only [Holds, Below, Above, point, Bool.false_eq_true, and_false, or_false, not_lt]
  exact ⟨fun h => le_antisymm h.2 h.1, fun h => ⟨h.ge, h.le⟩⟩

/-- All intervals of the list but the last one are points. -/
def PointsFirst : List (LexInterval α) → Prop
  | [] => True
  | i :: is => (is = [] ∨ ∃ a, i = point a) ∧ PointsFirst is

/-- The interval of tuples from the lower ends to the upper ends, open where the last one is. -/
def span (is : List (LexInterval α)) : LexInterval (List α) where
  lo := is.map lo
  hi := is.map hi
  loOpen := (is.getLast?.map loOpen).getD false
  hiOpen := (is.getLast?.map hiOpen).getD false

section Span

variable [LinearOrder α]

theorem span_nil_holds (xs : List α) : (span ([] : List (LexInterval α))).Holds (xs.take 0) := by
  simp [Holds, Below, Above, span]

/-- One interval: only the first column is compared. -/
theorem span_singleton_holds {i : LexInterval α} {x : α} : (span [i]).Holds [x] ↔ i.Holds x := by
  simp [Holds, Below, Above, span, List.cons_lt_cons_iff]

/-- A point before other intervals: the first column is that point. -/
theorem span_cons_holds {a : α} {i : LexInterval α} {is : List (LexInterval α)} {x : α} {xs : List α} :
    (span (point a :: i :: is)).Holds (x :: xs) ↔ x = a ∧ (span (i :: is)).Holds xs := by
  rcases lt_trichotomy x a with h | rfl | h
  · simp [Holds, Below, span, point, List.cons_lt_cons_iff, h, ne_of_lt h]
  · simp [Holds, Below, Above, span, point]
  · simp [Holds, Above, span, point, List.cons_lt_cons_iff, h, ne_of_gt h]

/-- A tuple is in the span when its first columns are in the intervals. -/
theorem span_holds_iff :
    ∀ (is : List (LexInterval α)) (xs : List α), PointsFirst is → is.length ≤ xs.length →
      ((span is).Holds (xs.take is.length) ↔ List.Forall₂ Holds is (xs.take is.length))
  | [], xs, _, _ => by
      simpa using span_nil_holds xs
  | [i], x :: xs, _, _ => by
      simpa using span_singleton_holds
  | i :: j :: is, x :: xs, hp, hlen => by
      obtain ⟨hpoint, hrest⟩ := hp
      obtain ⟨a, rfl⟩ := hpoint.resolve_left (by simp)
      have ih := span_holds_iff (j :: is) xs hrest (by simpa using hlen)
      rw [List.length_cons, List.take_succ_cons, span_cons_holds, List.forall₂_cons, holds_point, ih]

/-- The first columns of tuples are ordered as the tuples are. -/
theorem take_le_take : ∀ {xs ys : List α} (n : Nat), xs ≤ ys → xs.take n ≤ ys.take n
  | _, _, 0, _ => by simp
  | [], ys, n + 1, _ => by
      rw [List.take_nil, ← not_lt]
      exact List.not_lt_nil _
  | x :: xs, [], n + 1, h => absurd (List.nil_lt_cons x xs) (not_lt.2 h)
  | x :: xs, y :: ys, n + 1, h => by
      rw [List.take_succ_cons, List.take_succ_cons]
      rw [← not_lt, List.cons_lt_cons_iff] at h ⊢
      simp only [not_or, not_and, not_lt] at h ⊢
      exact ⟨h.1, fun heq => take_le_take n (h.2 heq)⟩

end Span

end LexInterval

end Lib
end Secondary
