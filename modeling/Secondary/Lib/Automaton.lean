import Mathlib.Data.Nat.Bitwise
import Secondary.Lib.Pattern

/-!
# Automaton — a table of states against the patterns it was made from

A scanner generator turns a list of patterns into a table of states.  Here a state is compared with
what is left of the patterns when the state is reached: a finite set of rests, each with the number
of its pattern.  If the table moves from state to state as the rests move from set to set, then the
longest match by the table is the longest match by the patterns.

* `ClassPattern` — a pattern whose letters are sets of character classes, so that rests can be
  compared by evaluation;
* `rests` — what may follow after a class;
* `Automaton.longest_eq` — a table that follows the rests finds the longest match.
-/

namespace Secondary
namespace Lib

variable {α : Type}

/-- A pattern over classes of characters; a letter is a set of classes, written as a bit mask. -/
inductive ClassPattern where
  | fail
  | done
  | one (set : Nat)
  | either (P Q : ClassPattern)
  | seq (P Q : ClassPattern)
  | many (P : ClassPattern)
  deriving DecidableEq

namespace ClassPattern

/-- The pattern over characters, where `cls` says which class a character is in. -/
def pattern (cls : α → Nat) : ClassPattern → Pattern α
  | fail => .fail
  | done => .done
  | one set => .one fun a => set.testBit (cls a)
  | either P Q => .either (P.pattern cls) (Q.pattern cls)
  | seq P Q => .seq (P.pattern cls) (Q.pattern cls)
  | many P => .many (P.pattern cls)

def nullable : ClassPattern → Bool
  | fail => false
  | done => true
  | one _ => false
  | either P Q => P.nullable || Q.nullable
  | seq P Q => P.nullable && Q.nullable
  | many _ => true

/-- `P` and then `Q`, where nothing is written for an empty `P`. -/
def andThen : ClassPattern → ClassPattern → ClassPattern
  | done, Q => Q
  | P, Q => seq P Q

/-- What may follow after a character of class `c`: any of the rests. -/
def rests (c : Nat) : ClassPattern → List ClassPattern
  | fail => []
  | done => []
  | one set => if set.testBit c then [done] else []
  | either P Q => P.rests c ++ Q.rests c
  | seq P Q =>
      if P.nullable then
        (P.rests c).map (fun R => R.andThen Q) ++ Q.rests c
      else
        (P.rests c).map fun R => R.andThen Q
  | many P => (P.rests c).map fun R => R.andThen (many P)

/-- The classes that a text can begin with. -/
def first : ClassPattern → Nat
  | fail => 0
  | done => 0
  | one set => set
  | either P Q => P.first ||| Q.first
  | seq P Q => if P.nullable then P.first ||| Q.first else P.first
  | many P => P.first

theorem rests_eq_nil {P : ClassPattern} {c : Nat} (h : P.first.testBit c = false) :
    P.rests c = [] := by
  induction P with
  | fail => rfl
  | done => rfl
  | one set => rw [rests, if_neg (by simpa [first] using h)]
  | either P Q ihP ihQ =>
      rw [first, Nat.testBit_or, Bool.or_eq_false_iff] at h
      rw [rests, ihP h.1, ihQ h.2]
      rfl
  | seq P Q ihP ihQ =>
      rw [first] at h
      rw [rests]
      split at h
      · next hnull =>
          rw [Nat.testBit_or, Bool.or_eq_false_iff] at h
          rw [if_pos hnull, ihP h.1, ihQ h.2]
          rfl
      · next hnull =>
          rw [if_neg hnull, ihP h]
          rfl
  | many P ih =>
      rw [rests, ih h]
      rfl

variable {cls : α → Nat}

@[simp] theorem nullable_pattern (P : ClassPattern) : (P.pattern cls).nullable = P.nullable := by
  induction P with
  | fail => rfl
  | done => rfl
  | one set => rfl
  | either P Q ihP ihQ => rw [pattern, Pattern.nullable, ihP, ihQ, nullable]
  | seq P Q ihP ihQ => rw [pattern, Pattern.nullable, ihP, ihQ, nullable]
  | many P _ => rfl

theorem mem_andThen {P Q : ClassPattern} {w : List α} :
    w ∈ ((P.andThen Q).pattern cls).language ↔
      w ∈ (P.pattern cls).language * (Q.pattern cls).language := by
  cases P with
  | done =>
      show w ∈ (Q.pattern cls).language ↔ w ∈ 1 * (Q.pattern cls).language
      rw [one_mul]
  | fail => exact Iff.rfl
  | one set => exact Iff.rfl
  | either P Q => exact Iff.rfl
  | seq P Q => exact Iff.rfl
  | many P => exact Iff.rfl

/-- The texts of rests that all go on with `Q`. -/
theorem exists_andThen {l : List ClassPattern} {Q : ClassPattern} {w : List α} :
    (∃ R ∈ l.map fun R => R.andThen Q, w ∈ (R.pattern cls).language) ↔
      ∃ u v, (∃ R ∈ l, u ∈ (R.pattern cls).language) ∧ v ∈ (Q.pattern cls).language ∧
        u ++ v = w := by
  constructor
  · rintro ⟨_, hR, hw⟩
    obtain ⟨R, hRl, rfl⟩ := List.mem_map.1 hR
    obtain ⟨u, hu, v, hv, rfl⟩ := Language.mem_mul.1 (mem_andThen.1 hw)
    exact ⟨u, v, ⟨R, hRl, hu⟩, hv, rfl⟩
  · rintro ⟨u, v, ⟨R, hRl, hu⟩, hv, rfl⟩
    exact ⟨_, List.mem_map_of_mem hRl, mem_andThen.2 (Language.mem_mul.2 ⟨u, hu, v, hv, rfl⟩)⟩

/-- The rests after a class are together the derivative by a character of the class. -/
theorem mem_deriv_iff (P : ClassPattern) (a : α) (w : List α) :
    w ∈ ((P.pattern cls).deriv a).language ↔
      ∃ R ∈ P.rests (cls a), w ∈ (R.pattern cls).language := by
  induction P generalizing w with
  | fail => simp [pattern, rests, Pattern.deriv, Pattern.language]
  | done => simp [pattern, rests, Pattern.deriv, Pattern.language]
  | one set =>
      rw [pattern, Pattern.deriv, rests]
      split
      · simp [pattern]
      · simp [Pattern.language]
  | either P Q ihP ihQ =>
      simp only [pattern, Pattern.deriv, Pattern.language, Language.mem_add, ihP, ihQ, rests,
        List.mem_append, or_and_right, exists_or]
  | seq P Q ihP ihQ =>
      have hfirst : w ∈ (((P.pattern cls).deriv a).seq (Q.pattern cls)).language ↔
          ∃ R ∈ (P.rests (cls a)).map fun R => R.andThen Q, w ∈ (R.pattern cls).language := by
        rw [exists_andThen, Pattern.language, Language.mem_mul]
        simp only [ihP]
        constructor
        · rintro ⟨u, hu, v, hv, huv⟩
          exact ⟨u, v, hu, hv, huv⟩
        · rintro ⟨u, v, hu, hv, huv⟩
          exact ⟨u, hu, v, hv, huv⟩
      rw [pattern, Pattern.deriv, nullable_pattern, rests]
      split
      · rw [Pattern.language, Language.mem_add, hfirst, ihQ]
        simp only [List.mem_append, or_and_right, exists_or]
      · exact hfirst
  | many P ih =>
      rw [pattern, Pattern.deriv, rests, exists_andThen, Pattern.language, Language.mem_mul]
      simp only [ih]
      constructor
      · rintro ⟨u, hu, v, hv, huv⟩
        exact ⟨u, v, hu, hv, huv⟩
      · rintro ⟨u, v, hu, hv, huv⟩
        exact ⟨u, hu, v, hv, huv⟩

/-! ## From characters to classes -/

/-- The classes of the representatives that meet `p`. -/
def mask (p : α → Bool) : List (Nat × α) → Nat
  | [] => 0
  | r :: reps => if p r.2 then mask p reps ||| 1 <<< r.1 else mask p reps

/-- The pattern over classes, where `reps` has one character of each class. -/
def ofPattern (reps : List (Nat × α)) : Pattern α → ClassPattern
  | .fail => fail
  | .done => done
  | .one p => one (mask p reps)
  | .either P Q => either (ofPattern reps P) (ofPattern reps Q)
  | .seq P Q => seq (ofPattern reps P) (ofPattern reps Q)
  | .many P => many (ofPattern reps P)

/-- `ok` holds of the letters of the pattern. -/
def AllLetters (ok : (α → Bool) → Prop) : Pattern α → Prop
  | .fail => True
  | .done => True
  | .one p => ok p
  | .either P Q => AllLetters ok P ∧ AllLetters ok Q
  | .seq P Q => AllLetters ok P ∧ AllLetters ok Q
  | .many P => AllLetters ok P

/-- No characters of one class are told apart. -/
def SeesClasses (cls : α → Nat) (reps : List (Nat × α)) (p : α → Bool) : Prop :=
  ∀ a, (mask p reps).testBit (cls a) = p a

/-- Nothing is lost where the letters see classes only. -/
theorem pattern_ofPattern {reps : List (Nat × α)} {P : Pattern α}
    (hP : AllLetters (SeesClasses cls reps) P) : (ofPattern reps P).pattern cls = P := by
  induction P with
  | fail => rfl
  | done => rfl
  | one p => exact congrArg Pattern.one (funext hP)
  | either P Q ihP ihQ => rw [ofPattern, pattern, ihP hP.1, ihQ hP.2]
  | seq P Q ihP ihQ => rw [ofPattern, pattern, ihP hP.1, ihQ hP.2]
  | many P ih => rw [ofPattern, pattern, ih hP]

theorem allLetters_word {ok : (α → Bool) → Prop} {same : α → α → Bool} {as : List α}
    (h : ∀ a ∈ as, ok (same a)) : AllLetters ok (Pattern.word same as) := by
  induction as with
  | nil => exact True.intro
  | cons a as ih =>
      rw [List.forall_mem_cons] at h
      exact ⟨h.1, ih h.2⟩

/-- A character that no letter takes is in no text. -/
theorem notMem_of_allLetters {P : Pattern α} {a : α} {w : List α}
    (hP : AllLetters (fun p => p a = false) P) (hw : w ∈ P.language) : a ∉ w := by
  induction P generalizing w with
  | fail => exact absurd hw (Language.notMem_zero w)
  | done =>
      obtain rfl : w = [] := (Language.mem_one w).1 hw
      exact List.not_mem_nil
  | one p =>
      obtain ⟨b, hb, rfl⟩ := hw
      intro ha
      rw [← List.mem_singleton.1 ha] at hb
      exact Bool.false_ne_true (hP.symm.trans hb)
  | either P Q ihP ihQ =>
      rcases hw with hw | hw
      · exact ihP hP.1 hw
      · exact ihQ hP.2 hw
  | seq P Q ihP ihQ =>
      obtain ⟨u, hu, v, hv, rfl⟩ := Language.mem_mul.1 hw
      rw [List.mem_append]
      exact not_or.2 ⟨ihP hP.1 hu, ihQ hP.2 hv⟩
  | many P ih =>
      obtain ⟨ws, rfl, hws⟩ := Language.mem_kstar.1 hw
      rw [List.mem_flatten]
      rintro ⟨u, hu, ha⟩
      exact ih hP (hws u hu) ha

end ClassPattern

/-! ## Sets of rests -/

/-- A rest of the pattern with this number. -/
abbrev Item : Type :=
  Nat × ClassPattern

/-- The rests after one more character. -/
def restsAfter (c : Nat) (l : List Item) : List Item :=
  l.flatMap fun x => (x.2.rests c).map fun R => (x.1, R)

/-- The classes that a rest can begin with. -/
def firstClasses (l : List Item) : Nat :=
  l.foldr (fun x m => x.2.first ||| m) 0

/-- The first pattern that has matched. -/
def firstDone (l : List Item) : Option Nat :=
  ((l.filter fun x => x.2.nullable).map fun x => x.1).min?

theorem mem_restsAfter {c : Nat} {l : List Item} {i : Nat} {R : ClassPattern} :
    (i, R) ∈ restsAfter c l ↔ ∃ P, (i, P) ∈ l ∧ R ∈ P.rests c := by
  rw [restsAfter, List.mem_flatMap]
  constructor
  · rintro ⟨⟨j, P⟩, hmem, hR⟩
    obtain ⟨R', hR', heq⟩ := List.mem_map.1 hR
    obtain ⟨rfl, rfl⟩ := Prod.mk.inj heq
    exact ⟨P, hmem, hR'⟩
  · rintro ⟨P, hmem, hR⟩
    exact ⟨(i, P), hmem, List.mem_map_of_mem hR⟩

theorem restsAfter_eq_nil {c : Nat} {l : List Item} (h : (firstClasses l).testBit c = false) :
    restsAfter c l = [] := by
  induction l with
  | nil => rfl
  | cons x l ih =>
      have hor : firstClasses (x :: l) = x.2.first ||| firstClasses l := rfl
      rw [hor, Nat.testBit_or, Bool.or_eq_false_iff] at h
      show (x.2.rests c).map _ ++ restsAfter c l = []
      rw [ClassPattern.rests_eq_nil h.1, ih h.2]
      rfl

theorem mem_done {l : List Item} {i : Nat} :
    (i ∈ (l.filter fun x => x.2.nullable).map fun x => x.1) ↔
      ∃ P, (i, P) ∈ l ∧ P.nullable = true := by
  rw [List.mem_map]
  constructor
  · rintro ⟨⟨j, P⟩, hmem, rfl⟩
    exact ⟨P, List.mem_filter.1 hmem⟩
  · rintro ⟨P, hmem⟩
    exact ⟨(i, P), List.mem_filter.2 hmem, rfl⟩

theorem firstDone_eq_none_iff {l : List Item} :
    firstDone l = none ↔ ∀ i P, (i, P) ∈ l → P.nullable ≠ true := by
  rw [firstDone, List.min?_eq_none_iff, List.eq_nil_iff_forall_not_mem]
  simp only [mem_done, not_exists, not_and]

theorem firstDone_eq_some_iff {l : List Item} {i : Nat} :
    firstDone l = some i ↔
      (∃ P, (i, P) ∈ l ∧ P.nullable = true) ∧
        ∀ j P, (j, P) ∈ l → P.nullable = true → i ≤ j := by
  rw [firstDone, List.min?_eq_some_iff, mem_done]
  simp only [mem_done, forall_exists_index, and_imp]

/-- The rests of each pattern are together the pattern. -/
structure Covers (cls : α → Nat) (l : List Item) (ps : List (Pattern α)) : Prop where
  mem : ∀ i P, ps[i]? = some P → ∀ w,
    w ∈ P.language ↔ ∃ R, (i, R) ∈ l ∧ w ∈ (R.pattern cls).language
  lt : ∀ x ∈ l, x.1 < ps.length

namespace Covers

variable {cls : α → Nat} {l l' : List Item} {ps : List (Pattern α)}

theorem restsAfter (h : Covers cls l ps) (a : α) :
    Covers cls (restsAfter (cls a) l) (ps.map (Pattern.deriv a)) := by
  refine ⟨?_, ?_⟩
  · intro i P' hP' w
    rw [List.getElem?_map, Option.map_eq_some_iff] at hP'
    obtain ⟨P, hP, rfl⟩ := hP'
    rw [Pattern.mem_deriv, h.mem i P hP]
    constructor
    · rintro ⟨R, hR, hw⟩
      obtain ⟨R', hR', hw'⟩ := (R.mem_deriv_iff a w).1 ((Pattern.mem_deriv _ a w).2 hw)
      exact ⟨R', mem_restsAfter.2 ⟨R, hR, hR'⟩, hw'⟩
    · rintro ⟨R', hR', hw'⟩
      obtain ⟨R, hR, hrest⟩ := mem_restsAfter.1 hR'
      exact ⟨R, hR, (Pattern.mem_deriv _ a w).1 ((R.mem_deriv_iff a w).2 ⟨R', hrest, hw'⟩)⟩
  · rintro ⟨i, R⟩ hR
    obtain ⟨P, hP, _⟩ := mem_restsAfter.1 hR
    rw [List.length_map]
    exact h.lt (i, P) hP

/-- Only what is in the list counts. -/
theorem congr (h : Covers cls l ps) (hl : ∀ x, x ∈ l' ↔ x ∈ l) : Covers cls l' ps :=
  ⟨fun i P hP w => by simp only [hl, h.mem i P hP w], fun x hx => h.lt x ((hl x).1 hx)⟩

theorem firstNullable_eq (h : Covers cls l ps) : firstNullable ps = firstDone l := by
  have hnull : ∀ i P, ps[i]? = some P →
      ([] ∈ P.language ↔ ∃ R, (i, R) ∈ l ∧ R.nullable = true) := by
    intro i P hP
    rw [h.mem i P hP]
    simp only [← Pattern.nullable_iff, ClassPattern.nullable_pattern]
  cases hl : firstDone l with
  | none =>
      rw [firstNullable_eq_none_iff]
      intro P hP hmem
      obtain ⟨i, hi⟩ := List.getElem?_of_mem hP
      obtain ⟨R, hR, hRnull⟩ := (hnull i P hi).1 hmem
      exact firstDone_eq_none_iff.1 hl i R hR hRnull
  | some i =>
      obtain ⟨⟨R, hR, hRnull⟩, hmin⟩ := firstDone_eq_some_iff.1 hl
      have hi := List.getElem?_eq_getElem (h.lt _ hR)
      rw [firstNullable_eq_some_iff]
      refine ⟨⟨_, hi, (hnull i _ hi).2 ⟨R, hR, hRnull⟩⟩, ?_⟩
      intro j hj P hP hmem
      obtain ⟨R', hR', hnull'⟩ := (hnull j P hP).1 hmem
      exact absurd (hmin j R' hR' hnull') (Nat.not_le_of_lt hj)

end Covers

/-- The whole patterns, as the first set of rests. -/
theorem covers_start {cls : α → Nat} {reps : List (Nat × α)} {ps : List (Pattern α)}
    (hps : ∀ P ∈ ps, ClassPattern.AllLetters (ClassPattern.SeesClasses cls reps) P) :
    Covers cls ((List.range ps.length).zip (ps.map (ClassPattern.ofPattern reps))) ps := by
  have hget : ∀ i R, (i, R) ∈ (List.range ps.length).zip (ps.map (ClassPattern.ofPattern reps)) ↔
      ∃ P, ps[i]? = some P ∧ R = ClassPattern.ofPattern reps P := by
    intro i R
    rw [List.mem_iff_getElem?]
    simp only [List.getElem?_zip_eq_some, List.getElem?_map]
    constructor
    · rintro ⟨k, hk, hR⟩
      obtain ⟨P, hP, rfl⟩ := Option.map_eq_some_iff.1 hR
      have hlt : k < ps.length := (List.getElem?_eq_some_iff.1 hP).1
      simp [hlt] at hk
      exact ⟨P, hk ▸ hP, rfl⟩
    · rintro ⟨P, hP, rfl⟩
      have hlt : i < ps.length := (List.getElem?_eq_some_iff.1 hP).1
      exact ⟨i, by simp [hlt], by rw [hP]; rfl⟩
  refine ⟨?_, ?_⟩
  · intro i P hP w
    have hback : (ClassPattern.ofPattern reps P).pattern cls = P :=
      ClassPattern.pattern_ofPattern (hps P (List.mem_of_getElem? hP))
    constructor
    · intro hw
      exact ⟨_, (hget i _).2 ⟨P, hP, rfl⟩, by rwa [hback]⟩
    · rintro ⟨R, hR, hw⟩
      obtain ⟨P', hP', rfl⟩ := (hget i R).1 hR
      obtain rfl : P = P' := Option.some.inj (hP.symm.trans hP')
      rwa [hback] at hw
  · rintro ⟨i, R⟩ hR
    obtain ⟨P, hP, _⟩ := (hget i R).1 hR
    exact (List.getElem?_eq_some_iff.1 hP).1

/-! ## Tables -/

/-- A table of states: where a character leads, and which pattern has matched in a state. -/
structure Automaton (α : Type) where
  step : Nat → α → Nat
  accept : Nat → Option Nat

namespace Automaton

variable (M : Automaton α)

def run (q : Nat) (w : List α) : Nat :=
  w.foldl M.step q

/-- The longest match from a state. -/
def longest : Nat → List α → Option (Nat × Nat)
  | q, [] => (M.accept q).map fun i => (0, i)
  | q, a :: w =>
      ((longest (M.step q a) w).map fun r => (r.1 + 1, r.2)).or ((M.accept q).map fun i => (0, i))

@[simp] theorem run_nil (q : Nat) : M.run q [] = q := rfl

@[simp] theorem run_cons (q : Nat) (a : α) (w : List α) :
    M.run q (a :: w) = M.run (M.step q a) w := rfl

theorem run_concat (q : Nat) (w : List α) (a : α) :
    M.run q (w ++ [a]) = M.step (M.run q w) a := by
  rw [run, run, List.foldl_append]
  rfl

theorem longest_eq_none_iff {q : Nat} {w : List α} :
    M.longest q w = none ↔ ∀ m ≤ w.length, M.accept (M.run q (w.take m)) = none := by
  induction w generalizing q with
  | nil => simp [longest]
  | cons a w ih =>
      have hstep : M.longest q (a :: w) = none ↔
          M.longest (M.step q a) w = none ∧ M.accept q = none := by
        rw [longest]
        cases M.longest (M.step q a) w <;> simp
      rw [hstep, ih]
      constructor
      · rintro ⟨hrest, hq⟩ m hm
        cases m with
        | zero => exact hq
        | succ m => exact hrest m (Nat.le_of_succ_le_succ hm)
      · intro h
        exact ⟨fun m hm => h (m + 1) (Nat.succ_le_succ hm), h 0 (Nat.zero_le _)⟩

/-- The match is the last one on the way through the table. -/
theorem longest_eq_some_iff {q n i : Nat} {w : List α} :
    M.longest q w = some (n, i) ↔
      n ≤ w.length ∧ M.accept (M.run q (w.take n)) = some i ∧
        ∀ m, n < m → m ≤ w.length → M.accept (M.run q (w.take m)) = none := by
  induction w generalizing q n i with
  | nil =>
      rw [longest, Option.map_eq_some_iff]
      constructor
      · rintro ⟨j, hj, heq⟩
        obtain ⟨rfl, rfl⟩ := Prod.mk.inj heq
        exact ⟨Nat.le_refl _, hj, fun m hm hm' => absurd hm' (Nat.not_le_of_lt hm)⟩
      · rintro ⟨hn, hi, _⟩
        obtain rfl : n = 0 := Nat.le_zero.1 hn
        exact ⟨i, hi, rfl⟩
  | cons a w ih =>
      rw [longest]
      cases hrest : M.longest (M.step q a) w with
      | some r =>
          obtain ⟨k, j⟩ := r
          obtain ⟨hk, hj, hafter⟩ := ih.1 hrest
          constructor
          · intro heq
            obtain ⟨rfl, rfl⟩ := Prod.mk.inj (Option.some.inj heq)
            refine ⟨Nat.succ_le_succ hk, hj, ?_⟩
            intro m hm hm'
            obtain ⟨m, rfl⟩ := Nat.exists_eq_succ_of_ne_zero (Nat.ne_of_gt (Nat.lt_of_le_of_lt
              (Nat.zero_le _) hm))
            exact hafter m (Nat.lt_of_succ_lt_succ hm) (Nat.le_of_succ_le_succ hm')
          · rintro ⟨hn, hi, hlast⟩
            cases n with
            | zero =>
                have := hlast (k + 1) (Nat.succ_pos k) (Nat.succ_le_succ hk)
                rw [List.take_succ_cons, run_cons, hj] at this
                cases this
            | succ n =>
                have hsame := (ih (q := M.step q a) (n := n) (i := i)).2
                  ⟨Nat.le_of_succ_le_succ hn, hi, fun m hm hm' =>
                    hlast (m + 1) (Nat.succ_lt_succ hm) (Nat.succ_le_succ hm')⟩
                rw [hrest] at hsame
                obtain ⟨rfl, rfl⟩ := Prod.mk.inj (Option.some.inj hsame)
                rfl
      | none =>
          have hnone := (M.longest_eq_none_iff).1 hrest
          constructor
          · intro heq
            obtain ⟨j, hj, heq⟩ := Option.map_eq_some_iff.1 heq
            obtain ⟨rfl, rfl⟩ := Prod.mk.inj heq
            refine ⟨Nat.zero_le _, hj, ?_⟩
            intro m hm hm'
            obtain ⟨m, rfl⟩ := Nat.exists_eq_succ_of_ne_zero (Nat.ne_of_gt hm)
            exact hnone m (Nat.le_of_succ_le_succ hm')
          · rintro ⟨hn, hi, _⟩
            cases n with
            | zero => exact Option.map_eq_some_iff.2 ⟨i, hi, rfl⟩
            | succ n =>
                have := hnone n (Nat.le_of_succ_le_succ hn)
                rw [List.take_succ_cons, run_cons, this] at hi
                cases hi

/-- The table follows the rests: `live` states have the set `rest`, step to live states with the set
of the next rests, and accept the first pattern that is done. -/
structure Follows (cls : α → Nat) (live : Nat → Prop) (rest : Nat → List Item) : Prop where
  live_step : ∀ q, live q → ∀ a, live (M.step q a)
  rest_step : ∀ q, live q → ∀ a x, x ∈ rest (M.step q a) ↔ x ∈ restsAfter (cls a) (rest q)
  accept_eq : ∀ q, live q → M.accept q = firstDone (rest q)

theorem longest_eq {M : Automaton α} {cls : α → Nat} {live : Nat → Prop} {rest : Nat → List Item}
    (hM : M.Follows cls live rest) (w : List α) :
    ∀ {q : Nat} {ps : List (Pattern α)}, live q → Covers cls (rest q) ps →
      M.longest q w = Lib.longest ps w := by
  induction w with
  | nil =>
      intro q ps hq h
      rw [longest, Lib.longest, hM.accept_eq q hq, h.firstNullable_eq]
  | cons a w ih =>
      intro q ps hq h
      have hnext : Covers cls (rest (M.step q a)) (ps.map (Pattern.deriv a)) :=
        (h.restsAfter a).congr (hM.rest_step q hq a)
      rw [longest, Lib.longest, ih (hM.live_step q hq a) hnext, hM.accept_eq q hq,
        h.firstNullable_eq]
      cases Lib.longest (ps.map (Pattern.deriv a)) w <;> rfl

end Automaton

/-! ## A default rule -/

section Default

variable {ps : List (Pattern α)} {a : α} {s : List α} {m i : Nat}

/-- The rule that takes any single character is taken where no other rule takes any. -/
theorem longest_default (h : longest (ps ++ [.one fun _ => true]) (a :: s) = some (m, i)) :
    (i < ps.length ∧ longest ps (a :: s) = some (m, i)) ∨
      (i = ps.length ∧ m = 1 ∧ ∀ n j, longest ps (a :: s) ≠ some (n + 1, j)) := by
  obtain ⟨hmlen, hprefix, ⟨⟨P, hP, hmem⟩, hbefore⟩, hafter⟩ := longest_eq_some_iff.1 h
  have hearlier : ∀ j, j < ps.length → (ps ++ [.one fun _ => true])[j]? = ps[j]? :=
    fun j hj => List.getElem?_append_left hj
  have hlonger : ∀ u, u <+: a :: s → ((a :: s).take m).length < u.length → ∀ P ∈ ps,
      u ∉ P.language :=
    fun u hu hlen P hP => hafter u hu hlen P (List.mem_append_left _ hP)
  rcases Nat.lt_or_ge i ps.length with hi | hi
  · refine Or.inl ⟨hi, longest_eq_some_iff.2 ⟨hmlen, hprefix, ⟨⟨P, ?_, hmem⟩, ?_⟩, hlonger⟩⟩
    · rw [← hearlier i hi]
      exact hP
    · intro j hj Q hQ
      exact hbefore j hj Q (by rw [hearlier j (Nat.lt_trans hj hi)]; exact hQ)
  · have hile : i < ps.length + 1 := by
      simpa using (List.getElem?_eq_some_iff.1 hP).1
    obtain rfl : i = ps.length := Nat.le_antisymm (Nat.le_of_lt_succ hile) hi
    obtain rfl : Pattern.one (fun _ => true) = P := by simpa using hP
    obtain ⟨b, _, hb⟩ := Pattern.mem_one.1 hmem
    have hone : m = 1 := by
      have hlen := congrArg List.length hb
      rw [List.length_take, Nat.min_eq_left hmlen] at hlen
      simpa using hlen
    refine Or.inr ⟨rfl, hone, ?_⟩
    intro n j hother
    obtain ⟨hnlen, hprefix', ⟨⟨Q, hQ, hmem'⟩, _⟩, _⟩ := longest_eq_some_iff.1 hother
    have hj : j < ps.length := (List.getElem?_eq_some_iff.1 hQ).1
    cases n with
    | zero =>
        rw [hone] at hbefore
        exact hbefore j hj Q (by rw [hearlier j hj]; exact hQ) hmem'
    | succ n =>
        refine hlonger _ hprefix' ?_ Q (List.mem_of_getElem? hQ) hmem'
        rw [List.length_take, List.length_take, Nat.min_eq_left hmlen, Nat.min_eq_left hnlen, hone]
        omega

/-- A run without the default rule leaves over what the default rule takes. -/
theorem pieces_of_default (h : longest (ps ++ [.one fun _ => true]) (a :: s) = some (m, i))
    (hm : 1 ≤ m) :
    pieces ps 0 (a :: s) =
      { rule := if i < ps.length then some i else none, text := (a :: s).take m } ::
        pieces ps 0 ((a :: s).drop m) := by
  obtain ⟨n, rfl⟩ : ∃ n, m = n + 1 := ⟨m - 1, by omega⟩
  rcases longest_default h with ⟨hi, hlongest⟩ | ⟨hi, hone, hnone⟩
  · rw [pieces, hlongest, if_pos hi]
    simp only [pieces_skip ps n s, List.take_succ_cons, List.drop_succ_cons]
  · obtain rfl : n = 0 := Nat.succ.inj hone
    have hleft : pieces ps 0 (a :: s) = { rule := none, text := [a] } :: pieces ps 0 s := by
      rw [pieces]
      split
      · next n j hsome => exact absurd hsome (hnone n j)
      · rfl
    rw [hleft, if_neg (by omega)]
    rfl

end Default

end Lib
end Secondary
