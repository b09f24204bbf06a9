import Secondary.Lib.Fallible
import Secondary.Lib.Store

/-!
# Fault — what a run of the C code may not do

The module is C: it reads through pointers, unions and arrays.  The model runs it in
`Exec = Except Fault`, and a `Fault` says which rule a run broke.  Everything after a fault is
undefined behaviour in C, so the model stops there.
-/

namespace Secondary

open Lib

inductive Fault
  /-- A skiplist node pointer that is NULL or freed, or an index outside that node's levels. -/
  | node
  /-- A key that has been passed to `free` or `SIMultiKey_Free`. -/
  | released
  /-- A union member that was not the one written. -/
  | member
  /-- An array index outside the array. -/
  | bounds
  /-- A NULL pointer that is not a node. -/
  | null
  /-- Memory that was never assigned. -/
  | unset
  /-- A loop that does not end. -/
  | diverges
  /-- The process has called `exit`. -/
  | exit
  deriving DecidableEq, Repr

abbrev Exec (α : Type) : Type :=
  Except Fault α

end Secondary
