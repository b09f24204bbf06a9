import Mathlib.Tactic.Common
import Secondary.Lib.Fallible

/-!
# Codec — reading back streams of items

A reader takes items off the front of a list, or fails.  `Reads read a is` says that it takes
exactly the items `is` and returns `a`, whatever follows them, so that readers and the streams they
read can be put together piece by piece.
-/

namespace Secondary
namespace Lib

universe u v

abbrev Reader (ε ι α : Type u) : Type u :=
  StateT (List ι) (Except ε) α

variable {ε ι α β : Type u}

/-- Take the next item, failing with `e` at the end. -/
def nextItem (e : ε) : Reader ε ι ι
  | [] => .error e
  | i :: is => .ok (i, is)

/-- Read `n` times. -/
def readMany (read : Reader ε ι α) : Nat → Reader ε ι (List α)
  | 0 => pure []
  | n + 1 => do
      let a ← read
      let as ← readMany read n
      pure (a :: as)

/-- Read once with each of the readers. -/
def readEach : List (Reader ε ι α) → Reader ε ι (List α)
  | [] => pure []
  | read :: reads => do
      let a ← read
      let as ← readEach reads
      pure (a :: as)

/-- The reader takes the items `is` and returns `a`. -/
def Reads (read : Reader ε ι α) (a : α) (is : List ι) : Prop :=
  ∀ rest, StateT.run read (is ++ rest) = Except.ok (a, rest)

namespace Reads

theorem pure (a : α) : Reads (Pure.pure a : Reader ε ι α) a [] :=
  fun _ => rfl

/-- What comes after a reader reads what comes after its items. -/
theorem run_bind {read : Reader ε ι α} {a : α} {is : List ι} (ha : Reads read a is)
    (f : α → Reader ε ι β) (rest : List ι) :
    StateT.run (read >>= f) (is ++ rest) = StateT.run (f a) rest := by
  rw [StateT.run_bind, ha, ok_bind]

theorem bind {read : Reader ε ι α} {f : α → Reader ε ι β} {a : α} {b : β} {is js : List ι}
    (ha : Reads read a is) (hb : Reads (f a) b js) : Reads (read >>= f) b (is ++ js) := by
  intro rest
  rw [List.append_assoc, ha.run_bind]
  exact hb rest

/-- A computation that is not about the stream. -/
theorem lift {x : Except ε α} {a : α} (h : x = Except.ok a) :
    Reads (StateT.lift x : Reader ε ι α) a [] := by
  intro rest
  rw [h]
  rfl

/-- A last step that takes no items. -/
theorem map {read : Reader ε ι α} {a : α} {is : List ι} (ha : Reads read a is) {g : α → β} {b : β}
    (hb : g a = b) : Reads (read >>= fun a => Pure.pure (g a)) b is := by
  have hpure : Reads (Pure.pure (g a) : Reader ε ι β) b [] := hb ▸ pure (g a)
  simpa using ha.bind (f := fun a => Pure.pure (g a)) hpure

theorem many {read : Reader ε ι α} {as : List α} {iss : List (List ι)}
    (h : List.Forall₂ (Reads read) as iss) : Reads (readMany read as.length) as iss.flatten := by
  induction h with
  | nil => exact pure []
  | cons ha _ ih => exact ha.bind (ih.map rfl)

/-- A sequence in which every element has its own reader. -/
theorem each {read : α → Reader ε ι α} {save : α → List ι} {as : List α}
    (h : ∀ a ∈ as, Reads (read a) a (save a)) : Reads (readEach (as.map read)) as (as.flatMap save) := by
  induction as with
  | nil => exact pure []
  | cons a as ih =>
      have hrest := ih fun b hb => h b (List.mem_cons_of_mem a hb)
      exact (h a (by simp)).bind (hrest.map rfl)

end Reads

end Lib
end Secondary
