import Mathlib.Data.List.Induction
import Mathlib.Order.Lattice
import Secondary.Lib.Run
import Secondary.Value

/-!
# ValueVector — `value.c`, value vectors that grow

A vector is `cap` cells of memory of which the first `len` are in use.  A store outside the cells
that were allocated faults; an allocation that fails ends the process, and is not modelled.

The rest of the development takes the values of a vector as a list.  `siValueVector_holds_iff` says
how far this is what the memory holds, and the parser's list of an IN is appended to through
`multivalsAppend`, which keeps to it.
-/

namespace Secondary

open Lib

/-! ## The vector -/

structure SIValueVector where
  /-- The cells that are allocated; a cell that was never written holds nothing. -/
  vals : List (Option SIValue)
  cap : Nat
  len : Nat

/-- `SI_NewValueVector`; `calloc` writes zeroes, which are a NULL value. -/
def siNewValueVector (cap : Nat) : SIValueVector where
  vals := List.replicate cap (some .null)
  cap := cap
  len := 0

/-- The cells that stay, and the new ones behind them. -/
def reallocCells (vals : List (Option SIValue)) (n : Nat) : List (Option SIValue) :=
  vals.take n ++ List.replicate (n - vals.length) none

/-- `v->cap ? MIN(v->cap * 2, 1000) : v->cap + 1` -/
def grownCap (cap : Nat) : Nat :=
  if cap ≠ 0 then min (cap * 2 % 2 ^ 64) 1000 else cap + 1

/-- The `if` of `SIValueVector_Append`. -/
def SIValueVector.grow (v : SIValueVector) : SIValueVector :=
  if v.len = v.cap then
    { v with cap := grownCap v.cap, vals := reallocCells v.vals (grownCap v.cap) }
  else
    v

/-- `SIValueVector_Append` -/
def siValueVectorAppend (v : SIValueVector) (val : SIValue) : Exec SIValueVector :=
  let v := v.grow
  if v.len < v.vals.length then
    .ok { v with vals := v.vals.set v.len (some val), len := v.len + 1 }
  else
    .error .bounds

/-! ## One append -/

/-- The vector is within its memory and holds the values in order. -/
structure SIValueVector.Holds (v : SIValueVector) (vs : List SIValue) : Prop where
  allocated : v.vals.length = v.cap
  len_eq : v.len = vs.length
  len_le : v.len ≤ v.cap
  vals_eq : v.vals.take v.len = vs.map some

namespace SIValueVector.Holds

variable {v : SIValueVector} {vs : List SIValue}

theorem new (cap : Nat) : (siNewValueVector cap).Holds [] where
  allocated := List.length_replicate
  len_eq := rfl
  len_le := Nat.zero_le cap
  vals_eq := rfl

theorem grow_len (v : SIValueVector) : v.grow.len = v.len := by
  unfold SIValueVector.grow
  split_ifs <;> rfl

theorem grow_allocated (h : v.Holds vs) : v.grow.vals.length = v.grow.cap := by
  unfold SIValueVector.grow
  split_ifs
  · simp only [reallocCells, List.length_append, List.length_take, List.length_replicate]
    omega
  · exact h.allocated

/-- Growing keeps the values when the new memory is not smaller. -/
theorem grow_vals (h : v.Holds vs) (hroom : v.len ≤ v.grow.cap) :
    v.grow.vals.take v.len = vs.map some := by
  unfold SIValueVector.grow at hroom ⊢
  split_ifs at hroom ⊢ with hfull
  · have hall : v.vals.length ≤ grownCap v.cap := by
      rw [h.allocated, ← hfull]
      rwa [hfull] at hroom ⊢
    rw [reallocCells, List.take_of_length_le hall, List.take_append_of_le_length, h.vals_eq]
    rw [h.allocated]
    exact h.len_le
  · exact h.vals_eq

/-- With a cell behind the values, the new value is stored there. -/
theorem append (h : v.Holds vs) (hroom : v.len < v.grow.cap) (val : SIValue) :
    ∃ v', siValueVectorAppend v val = .ok v' ∧ v'.Holds (vs ++ [val]) ∧ v'.cap = v.grow.cap := by
  have hlen := h.grow_allocated
  have hlt : v.grow.len < v.grow.vals.length := by
    rw [grow_len, hlen]
    exact hroom
  refine ⟨_, if_pos hlt, ⟨?_, ?_, ?_, ?_⟩, rfl⟩
  · simpa using hlen
  · simp [grow_len, h.len_eq]
  · rw [grow_len]
    exact hroom
  · have hvals := h.grow_vals (Nat.le_of_lt hroom)
    rw [← grow_len] at hvals
    simp only [List.take_add_one, List.take_set_of_le (le_refl _), hvals, List.map_append]
    simp [hlt]

/-- Without one, the store is outside the memory. -/
theorem append_bounds (h : v.Holds vs) (hfull : v.grow.cap ≤ v.len) (val : SIValue) :
    siValueVectorAppend v val = .error .bounds := by
  have hlen := h.grow_allocated
  refine if_neg ?_
  rw [grow_len, hlen]
  exact Nat.not_lt.2 hfull

end SIValueVector.Holds

/-! ## Runs of appends -/

/-- Up to the first capacity, or the limit of growth, every append has room. -/
theorem siValueVectorAppend_run {cap : Nat} {vs : List SIValue} (h : vs.length ≤ max cap 1000) :
    ∃ v, run siValueVectorAppend (siNewValueVector cap) vs = .ok v ∧ v.Holds vs ∧
      cap ≤ v.cap ∧ v.cap ≤ max cap 1000 := by
  induction vs using List.reverseRecOn with
  | nil => exact ⟨_, rfl, .new cap, le_refl cap, le_max_left cap 1000⟩
  | append_singleton vs val ih =>
      rw [List.length_append, List.length_singleton] at h
      obtain ⟨v, hrun, hholds, hlow, hhigh⟩ := ih (by omega)
      have hgrow : v.len < v.grow.cap ∧ cap ≤ v.grow.cap ∧ v.grow.cap ≤ max cap 1000 := by
        have hlen := hholds.len_eq
        have hle := hholds.len_le
        unfold SIValueVector.grow
        split_ifs with hfull
        · -- The capacity is below both the first one and the limit, so doubling does not wrap.
          simp only [grownCap]
          split_ifs with hzero <;> omega
        · exact ⟨by omega, hlow, hhigh⟩
      obtain ⟨v', happend, hholds', hcap⟩ := hholds.append hgrow.1 val
      refine ⟨v', ?_, hholds', hcap ▸ hgrow.2⟩
      rw [run_append, hrun, ok_bind, run_cons, happend, ok_bind, run_nil]

/-- The append behind the limit finds the vector full, and does not make it larger. -/
theorem siValueVectorAppend_run_error {cap : Nat} {vs : List SIValue}
    (h : max cap 1000 < vs.length) :
    run siValueVectorAppend (siNewValueVector cap) vs = .error .bounds := by
  have hlen : (vs.take (max cap 1000)).length = max cap 1000 := by
    rw [List.length_take]
    omega
  obtain ⟨v, hrun, hholds, hlow, hhigh⟩ := siValueVectorAppend_run (le_of_eq hlen)
  have hfull : v.len = v.cap := by
    have := hholds.len_eq
    have := hholds.len_le
    omega
  have hgrow : v.grow.cap ≤ v.len := by
    have := hholds.len_eq
    simp only [SIValueVector.grow, if_pos hfull, grownCap]
    split_ifs <;> omega
  have hsplit : vs = vs.take (max cap 1000) ++ vs[max cap 1000] :: vs.drop (max cap 1000 + 1) := by
    rw [← List.drop_eq_getElem_cons h, List.take_append_drop]
  rw [hsplit, run_append, hrun, ok_bind, run_cons, hholds.append_bounds hgrow, error_bind]

/-- After every one of the appends the vector is within its memory and holds the values so far. -/
def AppendsStay (cap : Nat) (vs : List SIValue) : Prop :=
  ∀ n ≤ vs.length, ∃ v, run siValueVectorAppend (siNewValueVector cap) (vs.take n) = .ok v ∧
    v.Holds (vs.take n)

/-- Appends stay within the memory exactly when there are at most as many as the first capacity, or
at most 1000. -/
theorem siValueVector_holds_iff (cap : Nat) (vs : List SIValue) :
    AppendsStay cap vs ↔ vs.length ≤ max cap 1000 := by
  constructor
  · intro h
    by_contra hlarge
    obtain ⟨v, hrun, _⟩ := h vs.length (le_refl _)
    rw [List.take_length, siValueVectorAppend_run_error (by omega)] at hrun
    cases hrun
  · intro h n hn
    have hlen : (vs.take n).length ≤ max cap 1000 := le_trans (List.length_take_le n vs) (by omega)
    obtain ⟨v, hrun, hholds, _⟩ := siValueVectorAppend_run hlen
    exact ⟨v, hrun, hholds⟩

/-- The list of an IN with 1001 values. -/
theorem siValueVector_thousandAndOne_bounds :
    ¬AppendsStay 2 (List.replicate 1001 (.int64 0)) := by
  intro h
  obtain ⟨v, hrun, _⟩ := h _ (le_refl _)
  rw [List.take_length, siValueVectorAppend_run_error] at hrun
  · cases hrun
  · rw [List.length_replicate]
    decide

/-! ## The vectors that are made -/

/-- `while (ch.v.len < num)` of `SI_NewAddChange`, over the arguments that are left. -/
def appendArgs (num : Nat) : SIValueVector → List SIValue → Exec SIValueVector
  | v, args =>
      if v.len < num then
        match args with
        | [] => .error .unset
        | arg :: args => siValueVectorAppend v arg >>= fun v => appendArgs num v args
      else
        .ok v

/-- The vector of `SI_NewAddChange`. -/
def newAddChangeValues (num : Nat) (args : List SIValue) : Exec SIValueVector :=
  appendArgs num (siNewValueVector num) args

/-- The vector of `multivals` with the values `vs`: it is made with room for two of them, and each is
appended. -/
def multivalsVector (vs : List SIValue) : Exec SIValueVector :=
  run siValueVectorAppend (siNewValueVector 2) vs

/-- `SIValueVector_Append` on the vector of `multivals` with the values `vs`; the values after it. -/
def multivalsAppend (vs : List SIValue) (c : SIValue) : Exec (List SIValue) := do
  let v ← multivalsVector vs
  let _ ← siValueVectorAppend v c
  .ok (vs ++ [c])

/-- A change is made with room for all of its values. -/
theorem newAddChangeValues_spec (args : List SIValue) :
    ∃ v, newAddChangeValues args.length args = .ok v ∧ v.Holds args := by
  have hloop : ∀ (args : List SIValue) {v : SIValueVector} {vs : List SIValue}, v.Holds vs →
      vs.length + args.length = v.cap →
      ∃ v', appendArgs v.cap v args = .ok v' ∧ v'.Holds (vs ++ args) := by
    intro args
    induction args with
    | nil =>
        intro v vs hholds hcap
        have hend : ¬v.len < v.cap := by
          rw [hholds.len_eq, ← hcap]
          exact Nat.lt_irrefl _
        exact ⟨v, by rw [appendArgs, if_neg hend], by simpa using hholds⟩
    | cons arg args ih =>
        intro v vs hholds hcap
        rw [List.length_cons] at hcap
        have hmore : v.len < v.cap := by
          have := hholds.len_eq
          omega
        have hgrow : v.grow = v := if_neg (Nat.ne_of_lt hmore)
        obtain ⟨v', happend, hholds', hcap'⟩ := hholds.append (by rwa [hgrow]) arg
        rw [hgrow] at hcap'
        have hleft : (vs ++ [arg]).length + args.length = v'.cap := by
          rw [hcap', ← hcap, List.length_append, List.length_singleton]
          omega
        obtain ⟨v'', hrest, hall⟩ := ih hholds' hleft
        refine ⟨v'', ?_, by simpa using hall⟩
        rw [appendArgs, if_pos hmore, happend, ok_bind, ← hcap', hrest]
  exact hloop args (.new args.length) (Nat.zero_add _)

/-- The vector of an IN holds its values exactly when there are at most 1000. -/
theorem multivalsVector_holds_iff (vs : List SIValue) :
    (∃ v, multivalsVector vs = .ok v ∧ v.Holds vs) ↔ vs.length ≤ 1000 := by
  constructor
  · rintro ⟨v, hrun, _⟩
    by_contra hlarge
    have hlong : max 2 1000 < vs.length := Nat.lt_of_not_le hlarge
    rw [multivalsVector, siValueVectorAppend_run_error hlong] at hrun
    cases hrun
  · intro h
    have hlen : vs.length ≤ max 2 1000 := h
    obtain ⟨v, hrun, hholds, _⟩ := siValueVectorAppend_run hlen
    exact ⟨v, hrun, hholds⟩

/-- A value is appended to fewer than 1000, or it is stored outside the vector. -/
theorem multivalsAppend_eq (vs : List SIValue) (c : SIValue) :
    multivalsAppend vs c = if vs.length < 1000 then .ok (vs ++ [c]) else .error .bounds := by
  have happend : multivalsAppend vs c = multivalsVector (vs ++ [c]) >>= fun _ => .ok (vs ++ [c]) := by
    simp only [multivalsAppend, multivalsVector, run_append, run_cons, run_nil]
    cases run siValueVectorAppend (siNewValueVector 2) vs with
    | error e => rfl
    | ok v =>
        simp only [ok_bind]
        cases siValueVectorAppend v c <;> rfl
  rw [happend]
  split_ifs with hroom
  · have hlen : (vs ++ [c]).length ≤ 1000 := by
      rw [List.length_append, List.length_singleton]
      exact hroom
    obtain ⟨v, hv, _⟩ := (multivalsVector_holds_iff (vs ++ [c])).2 hlen
    rw [hv, ok_bind]
  · have hlong : max 2 1000 < (vs ++ [c]).length := by
      simp only [List.length_append, List.length_singleton]
      omega
    rw [multivalsVector, siValueVectorAppend_run_error hlong, error_bind]

end Secondary
