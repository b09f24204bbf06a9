import Secondary.Lib.Fallible

/-!
# Cells — memory that is not assigned at first

A `Field` of memory that was just allocated has some content, which nobody assigned; reading it is a
fault, whatever it is.  The cells of an array that was just declared hold nothing: reading a cell
faults when it is outside the array or was never assigned, and assigning one faults when it is
outside the array.  Arrays are mostly assigned from the front: `Cells.of vs rest` has the values
`vs` in its first cells.
-/

namespace Secondary
namespace Lib

universe u

/-! ## Fields -/

/-- A field of type `α` in memory of words of type `W`. -/
inductive Field (W α : Type u)
  | assigned (a : α)
  | junk (w : W)

namespace Field

variable {ε W α : Type u}

def read (unset : ε) : Field W α → Except ε α
  | assigned a => .ok a
  | junk _ => .error unset

@[simp] theorem read_assigned (unset : ε) (a : α) :
    (assigned a : Field W α).read unset = .ok a := rfl

@[simp] theorem read_junk (unset : ε) (w : W) :
    (junk w : Field W α).read unset = .error unset := rfl

end Field

/-! ## Arrays -/

structure Cells (α : Type u) where
  cells : List (Option α)

namespace Cells

variable {ε α : Type u}

/-- An array that was declared, and not assigned. -/
def fresh (n : Nat) : Cells α where
  cells := List.replicate n none

/-- An array that was filled with one value. -/
def filled (n : Nat) (v : α) : Cells α where
  cells := List.replicate n (some v)

def read (bounds unset : ε) (a : Cells α) (i : Nat) : Except ε α :=
  match a.cells[i]? with
  | none => .error bounds
  | some none => .error unset
  | some (some v) => .ok v

def write (bounds : ε) (a : Cells α) (i : Nat) (v : α) : Except ε (Cells α) :=
  if i < a.cells.length then .ok { cells := a.cells.set i (some v) } else .error bounds

/-- The array that holds `vs` in its first cells, and is as `rest` says behind them. -/
def of (vs : List α) (rest : List (Option α)) : Cells α where
  cells := vs.map some ++ rest

section Front

variable (bounds unset : ε) (vs : List α) (rest : List (Option α))

variable {vs rest} in
theorem read_of {i : Nat} {v : α} (h : vs[i]? = some v) :
    (of vs rest).read bounds unset i = .ok v := by
  have hlt := (List.getElem?_eq_some_iff.1 h).1
  have hcell : (of vs rest).cells[i]? = some (some v) := by
    rw [of, List.getElem?_append_left (by simpa using hlt), List.getElem?_map, h]
    rfl
  rw [read, hcell]

/-- Assigning the first of the cells that are left. -/
theorem write_of (c : Option α) (v : α) :
    (of vs (c :: rest)).write bounds vs.length v = .ok (of (vs ++ [v]) rest) := by
  have hlt : vs.length < (of vs (c :: rest)).cells.length := by simp [of]
  rw [write, if_pos hlt]
  simp [of]

theorem write_of_nil (v : α) :
    (of vs ([] : List (Option α))).write bounds vs.length v = .error bounds :=
  if_neg (by simp [of])

/-- Assigning again what was assigned last, and all that is behind it. -/
theorem of_append (ws : List α) : of (vs ++ ws) rest = of vs (ws.map some ++ rest) := by
  simp [of]

end Front

end Cells

end Lib
end Secondary
