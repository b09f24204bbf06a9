import Mathlib.Tactic.Common

/-!
# Store — memory handed out by an allocator

A `Store α` maps references to cells.  References count up and are never handed out twice, so a
reference to a released cell stays a reference to nothing: reading through it finds no cell, and
the reader can tell a dangling pointer from a live one.
-/

namespace Secondary
namespace Lib

structure Store (α : Type) where
  next : Nat
  cell : Nat → Option α
  /-- Nothing is stored at or past the allocation frontier. -/
  fresh : ∀ p, next ≤ p → cell p = none

namespace Store

variable {α : Type}

/-- The store in which nothing has been allocated. -/
def empty : Store α where
  next := 0
  cell := fun _ => none
  fresh := fun _ _ => rfl

/-- A cell is live from its allocation to its release. -/
def Live (s : Store α) (p : Nat) : Prop :=
  (s.cell p).isSome

instance (s : Store α) (p : Nat) : Decidable (s.Live p) :=
  inferInstanceAs (Decidable ((s.cell p).isSome = true))

/-- Allocate a cell holding `a`; its reference is `s.next`. -/
def alloc (s : Store α) (a : α) : Store α where
  next := s.next + 1
  cell := fun q => if q = s.next then some a else s.cell q
  fresh := by
    intro q hq
    have hne : q ≠ s.next := by omega
    simp [hne, s.fresh q (by omega)]

/-- Release the cell at `p`. -/
def free (s : Store α) (p : Nat) : Store α where
  next := s.next
  cell := fun q => if q = p then none else s.cell q
  fresh := by
    intro q hq
    simp [s.fresh q hq]

/-- Update the cell at `p` in place; nothing happens where there is no cell. -/
def modify (s : Store α) (p : Nat) (f : α → α) : Store α where
  next := s.next
  cell := fun q => if q = p then (s.cell q).map f else s.cell q
  fresh := by
    intro q hq
    simp [s.fresh q hq]

/-! ## Reading after an operation -/

@[simp] theorem cell_empty (p : Nat) : (empty : Store α).cell p = none := rfl

@[simp] theorem next_empty : (empty : Store α).next = 0 := rfl

@[simp] theorem next_alloc (s : Store α) (a : α) : (s.alloc a).next = s.next + 1 := rfl

@[simp] theorem next_free (s : Store α) (p : Nat) : (s.free p).next = s.next := rfl

@[simp] theorem next_modify (s : Store α) (p : Nat) (f : α → α) :
    (s.modify p f).next = s.next := rfl

@[simp] theorem cell_alloc_self (s : Store α) (a : α) : (s.alloc a).cell s.next = some a := by
  simp [alloc]

theorem cell_alloc_of_ne (s : Store α) (a : α) {q : Nat} (h : q ≠ s.next) :
    (s.alloc a).cell q = s.cell q := by
  simp [alloc, h]

@[simp] theorem cell_free_self (s : Store α) (p : Nat) : (s.free p).cell p = none := by
  simp [free]

theorem cell_free_of_ne (s : Store α) {p q : Nat} (h : q ≠ p) :
    (s.free p).cell q = s.cell q := by
  simp [free, h]

@[simp] theorem cell_modify_self (s : Store α) (p : Nat) (f : α → α) :
    (s.modify p f).cell p = (s.cell p).map f := by
  simp [modify]

theorem cell_modify_of_ne (s : Store α) {p q : Nat} (f : α → α) (h : q ≠ p) :
    (s.modify p f).cell q = s.cell q := by
  simp [modify, h]

/-- A cell that holds something lies below the frontier, so a fresh reference differs from it. -/
theorem lt_next {s : Store α} {p : Nat} {a : α} (h : s.cell p = some a) : p < s.next := by
  by_contra hp
  have := s.fresh p (by omega)
  simp [h] at this

theorem ne_next {s : Store α} {p : Nat} {a : α} (h : s.cell p = some a) : p ≠ s.next :=
  Nat.ne_of_lt (lt_next h)

/-- Allocating leaves every existing cell as it was. -/
theorem cell_alloc_of_some {s : Store α} {p : Nat} {b : α} (h : s.cell p = some b) (a : α) :
    (s.alloc a).cell p = some b := by
  rw [cell_alloc_of_ne s a (ne_next h), h]

/-- A cell that is released right after its allocation leaves the store as it was. -/
theorem cell_free_alloc (s : Store α) (a : α) (p : Nat) :
    ((s.alloc a).free s.next).cell p = s.cell p := by
  by_cases hp : p = s.next
  · rw [hp, cell_free_self, s.fresh s.next (Nat.le_refl _)]
  · rw [cell_free_of_ne _ hp, cell_alloc_of_ne _ _ hp]

theorem live_iff {s : Store α} {p : Nat} : s.Live p ↔ ∃ a, s.cell p = some a := by
  simp [Live, Option.isSome_iff_exists]

end Store

end Lib
end Secondary
