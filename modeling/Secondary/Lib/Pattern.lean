import Mathlib.Computability.Language

/-!
# Pattern — scanning by patterns, longest match first

A scanner is a list of patterns over an alphabet.  At each position it takes the longest text that
some pattern matches, and among the patterns that match it, the first.  A character at which no
pattern matches is left over.

* `Pattern.language` — what a pattern matches;
* `longest` — the scanner's choice at a position, by derivatives of all patterns at once;
* `pieces` — the scanner's run;
* `Tokenizes` — a text that is split into pieces with nothing left over.
-/

namespace Secondary
namespace Lib

variable {α : Type}

/-- A pattern over an alphabet; its letters are classes of characters. -/
inductive Pattern (α : Type) where
  | fail
  | done
  | one (p : α → Bool)
  | either (P Q : Pattern α)
  | seq (P Q : Pattern α)
  | many (P : Pattern α)

namespace Pattern

/-- The texts that a pattern matches. -/
def language : Pattern α → Language α
  | fail => 0
  | done => 1
  | one p => {w | ∃ a, p a = true ∧ w = [a]}
  | either P Q => P.language + Q.language
  | seq P Q => P.language * Q.language
  | many P => KStar.kstar P.language

/-- Whether the pattern matches the empty text. -/
def nullable : Pattern α → Bool
  | fail => false
  | done => true
  | one _ => false
  | either P Q => P.nullable || Q.nullable
  | seq P Q => P.nullable && Q.nullable
  | many _ => true

/-- What may follow after a character. -/
def deriv (a : α) : Pattern α → Pattern α
  | fail => fail
  | done => fail
  | one p => if p a then done else fail
  | either P Q => either (P.deriv a) (Q.deriv a)
  | seq P Q =>
      if P.nullable then
        either (seq (P.deriv a) Q) (Q.deriv a)
      else
        seq (P.deriv a) Q
  | many P => seq (P.deriv a) (many P)

theorem mem_one {p : α → Bool} {w : List α} :
    w ∈ (one p).language ↔ ∃ a, p a = true ∧ w = [a] :=
  Iff.rfl

theorem nullable_iff (P : Pattern α) : P.nullable = true ↔ [] ∈ P.language := by
  induction P with
  | fail => simp [nullable, language]
  | done => simp [nullable, language]
  | one p => simp [nullable, mem_one]
  | either P Q ihP ihQ => simp [nullable, language, Language.mem_add, ihP, ihQ]
  | seq P Q ihP ihQ =>
      rw [nullable, Bool.and_eq_true, ihP, ihQ, language, Language.mem_mul]
      constructor
      · exact fun h => ⟨[], h.1, [], h.2, rfl⟩
      · rintro ⟨u, hu, v, hv, huv⟩
        obtain ⟨rfl, rfl⟩ := List.append_eq_nil_iff.1 huv
        exact ⟨hu, hv⟩
  | many P ih => simp [nullable, language, Language.nil_mem_kstar]

/-- A nonempty text of a star begins with a nonempty text of its body. -/
theorem cons_mem_kstar {l : Language α} {a : α} {w : List α} :
    a :: w ∈ KStar.kstar l ↔ ∃ u v, w = u ++ v ∧ a :: u ∈ l ∧ v ∈ KStar.kstar l := by
  constructor
  · intro h
    obtain ⟨S, hS, hmem⟩ := Language.mem_kstar_iff_exists_nonempty.1 h
    cases S with
    | nil => cases hS
    | cons t S =>
        obtain ⟨ht, hne⟩ := hmem t (by simp)
        obtain ⟨b, u, rfl⟩ := List.exists_cons_of_ne_nil hne
        obtain ⟨rfl, rfl⟩ : a = b ∧ w = u ++ S.flatten := by simpa using hS
        exact ⟨u, S.flatten, rfl, ht,
          Language.join_mem_kstar fun y hy => (hmem y (List.mem_cons_of_mem _ hy)).1⟩
  · rintro ⟨u, v, rfl, hu, hv⟩
    obtain ⟨S, rfl, hmem⟩ := Language.mem_kstar.1 hv
    have hjoin := Language.join_mem_kstar (l := l) (L := (a :: u) :: S)
      (List.forall_mem_cons.2 ⟨hu, hmem⟩)
    simpa using hjoin

theorem mem_deriv (P : Pattern α) (a : α) (w : List α) :
    w ∈ (P.deriv a).language ↔ a :: w ∈ P.language := by
  induction P generalizing w with
  | fail => exact Iff.rfl
  | done => simp [deriv, language, Language.mem_one]
  | one p =>
      rw [mem_one]
      by_cases hp : p a = true
      · simp [deriv, hp, language, Language.mem_one]
      · simp [deriv, hp, language]
  | either P Q ihP ihQ => simp [deriv, language, Language.mem_add, ihP, ihQ]
  | seq P Q ihP ihQ =>
      -- The first symbol is read by the first pattern, or by the second if the first is nullable.
      have hleft : w ∈ ((P.deriv a).seq Q).language ↔
          ∃ u, a :: u ∈ P.language ∧ ∃ v ∈ Q.language, u ++ v = w := by
        simp only [language, Language.mem_mul, ihP]
      have hsplit : a :: w ∈ (P.seq Q).language ↔
          (∃ u, a :: u ∈ P.language ∧ ∃ v ∈ Q.language, u ++ v = w) ∨
            ([] ∈ P.language ∧ a :: w ∈ Q.language) := by
        simp only [language, Language.mem_mul]
        constructor
        · rintro ⟨u, hu, v, hv, huv⟩
          cases u with
          | nil => exact Or.inr ⟨hu, by rwa [← huv]⟩
          | cons b u =>
              obtain ⟨rfl, rfl⟩ := List.cons.inj huv
              exact Or.inl ⟨u, hu, v, hv, rfl⟩
        · rintro (⟨u, hu, v, hv, rfl⟩ | ⟨hnil, hw⟩)
          · exact ⟨a :: u, hu, v, hv, rfl⟩
          · exact ⟨[], hnil, a :: w, hw, rfl⟩
      rw [hsplit, ← nullable_iff]
      by_cases hP : P.nullable = true
      · rw [deriv, if_pos hP, language, Language.mem_add, hleft, ihQ]
        simp [hP]
      · rw [deriv, if_neg hP, hleft]
        simp [hP]
  | many P ih =>
      simp only [deriv, language, Language.mem_mul, cons_mem_kstar, ih]
      constructor
      · rintro ⟨u, hu, v, hv, rfl⟩
        exact ⟨u, v, rfl, hu, hv⟩
      · rintro ⟨u, v, rfl, hu, hv⟩
        exact ⟨u, hu, v, hv, rfl⟩

/-! ## Patterns without long texts -/

/-- The pattern is seen to match nothing. -/
def matchesNone : Pattern α → Bool
  | fail => true
  | done => false
  | one _ => false
  | either P Q => P.matchesNone && Q.matchesNone
  | seq P Q => P.matchesNone || Q.matchesNone
  | many _ => false

/-- The pattern is seen to match no text but the empty one. -/
def matchesNoMore : Pattern α → Bool
  | fail => true
  | done => true
  | one _ => false
  | either P Q => P.matchesNoMore && Q.matchesNoMore
  | seq P Q => P.matchesNone || Q.matchesNone || P.matchesNoMore && Q.matchesNoMore
  | many P => P.matchesNone

theorem not_mem_of_matchesNone {P : Pattern α} (h : P.matchesNone = true) (w : List α) :
    w ∉ P.language := by
  induction P generalizing w with
  | fail => exact fun hw => hw
  | done => cases h
  | one p => cases h
  | either P Q ihP ihQ =>
      simp only [matchesNone, Bool.and_eq_true] at h
      rw [language, Language.mem_add]
      exact not_or.2 ⟨ihP h.1 w, ihQ h.2 w⟩
  | seq P Q ihP ihQ =>
      simp only [matchesNone, Bool.or_eq_true] at h
      rw [language, Language.mem_mul]
      rintro ⟨u, hu, v, hv, _⟩
      rcases h with h | h
      · exact ihP h u hu
      · exact ihQ h v hv
  | many P ih => cases h

theorem eq_nil_of_matchesNoMore {P : Pattern α} (h : P.matchesNoMore = true) {w : List α}
    (hw : w ∈ P.language) : w = [] := by
  induction P generalizing w with
  | fail => exact absurd hw (not_mem_of_matchesNone rfl w)
  | done => exact hw
  | one p => cases h
  | either P Q ihP ihQ =>
      simp only [matchesNoMore, Bool.and_eq_true] at h
      rcases hw with hw | hw
      · exact ihP h.1 hw
      · exact ihQ h.2 hw
  | seq P Q ihP ihQ =>
      simp only [matchesNoMore, Bool.or_eq_true, Bool.and_eq_true] at h
      obtain ⟨u, hu, v, hv, rfl⟩ := Language.mem_mul.1 hw
      rcases h with (h | h) | h
      · exact absurd hu (not_mem_of_matchesNone h u)
      · exact absurd hv (not_mem_of_matchesNone h v)
      · rw [ihP h.1 hu, ihQ h.2 hv, List.append_nil]
  | many P ih =>
      cases w with
      | nil => rfl
      | cons a w =>
          obtain ⟨u, v, _, hu, _⟩ := cons_mem_kstar.1 hw
          exact absurd hu (not_mem_of_matchesNone h _)

/-! ## Shorthands -/

/-- The given characters, one after the other, up to `same`. -/
def word (same : α → α → Bool) : List α → Pattern α
  | [] => done
  | a :: as => seq (one (same a)) (word same as)

def opt (P : Pattern α) : Pattern α :=
  either done P

def some (P : Pattern α) : Pattern α :=
  seq P (many P)

end Pattern

/-! ## Longest match -/

/-- `i` is the first of the patterns that match `w`. -/
def FirstMatch (ps : List (Pattern α)) (i : Nat) (w : List α) : Prop :=
  (∃ P, ps[i]? = some P ∧ w ∈ P.language) ∧
    ∀ j, j < i → ∀ P, ps[j]? = some P → w ∉ P.language

def firstNullable (ps : List (Pattern α)) : Option Nat :=
  ps.findIdx? Pattern.nullable

/-- The length of the longest prefix that some pattern matches, and the first pattern that
matches it. -/
def longest : List (Pattern α) → List α → Option (Nat × Nat)
  | ps, [] => (firstNullable ps).map fun i => (0, i)
  | ps, a :: s =>
      match longest (ps.map (Pattern.deriv a)) s with
      | some r => some (r.1 + 1, r.2)
      | none => (firstNullable ps).map fun i => (0, i)

theorem firstMatch_deriv {ps : List (Pattern α)} {i : Nat} {a : α} {w : List α} :
    FirstMatch (ps.map (Pattern.deriv a)) i w ↔ FirstMatch ps i (a :: w) := by
  simp [FirstMatch, Pattern.mem_deriv]

theorem firstNullable_eq_some_iff {ps : List (Pattern α)} {i : Nat} :
    firstNullable ps = some i ↔ FirstMatch ps i [] := by
  rw [firstNullable, List.findIdx?_eq_some_iff_getElem, FirstMatch]
  constructor
  · rintro ⟨hi, hnull, hbefore⟩
    refine ⟨⟨ps[i], List.getElem?_eq_getElem hi, (Pattern.nullable_iff _).1 hnull⟩, ?_⟩
    intro j hj P hP hmem
    obtain ⟨hjlen, rfl⟩ := List.getElem?_eq_some_iff.1 hP
    exact absurd ((Pattern.nullable_iff _).2 hmem) (hbefore j hj)
  · rintro ⟨⟨P, hP, hmem⟩, hbefore⟩
    obtain ⟨hi, rfl⟩ := List.getElem?_eq_some_iff.1 hP
    refine ⟨hi, (Pattern.nullable_iff _).2 hmem, fun j hj hnull => ?_⟩
    have hjlen : j < ps.length := Nat.lt_trans hj hi
    exact hbefore j hj _ (List.getElem?_eq_getElem hjlen) ((Pattern.nullable_iff _).1 hnull)

theorem firstNullable_eq_none_iff {ps : List (Pattern α)} :
    firstNullable ps = none ↔ ∀ P ∈ ps, [] ∉ P.language := by
  simp [firstNullable, List.findIdx?_eq_none_iff, ← Pattern.nullable_iff]

/-- No pattern matches any prefix. -/
theorem longest_eq_none_iff {ps : List (Pattern α)} {s : List α} :
    longest ps s = none ↔ ∀ w, w <+: s → ∀ P ∈ ps, w ∉ P.language := by
  induction s generalizing ps with
  | nil => simp [longest, firstNullable_eq_none_iff]
  | cons a s ih =>
      have hstep : longest ps (a :: s) = none ↔
          longest (ps.map (Pattern.deriv a)) s = none ∧ firstNullable ps = none := by
        rw [longest]
        cases longest (ps.map (Pattern.deriv a)) s <;> simp
      rw [hstep, ih, firstNullable_eq_none_iff]
      simp only [List.forall_mem_map, Pattern.mem_deriv]
      constructor
      · rintro ⟨hcons, hnil⟩ w hw
        cases w with
        | nil => exact hnil
        | cons b w =>
            obtain ⟨rfl, hws⟩ := List.cons_prefix_cons.1 hw
            exact hcons w hws
      · exact fun h => ⟨fun w hw => h (a :: w) (List.cons_prefix_cons.2 ⟨rfl, hw⟩),
          h [] (List.nil_prefix)⟩

/-- `w` is the longest prefix of `s` that some pattern matches, and `i` the first of them. -/
def LongestMatch (ps : List (Pattern α)) (s : List α) (i : Nat) (w : List α) : Prop :=
  w <+: s ∧ FirstMatch ps i w ∧
    ∀ u, u <+: s → w.length < u.length → ∀ P ∈ ps, u ∉ P.language

theorem longestMatch_cons_iff {ps : List (Pattern α)} {a : α} {s w : List α} {i : Nat} :
    LongestMatch ps (a :: s) i (a :: w) ↔ LongestMatch (ps.map (Pattern.deriv a)) s i w := by
  rw [LongestMatch, LongestMatch, firstMatch_deriv]
  refine and_congr (by simp) (and_congr Iff.rfl ?_)
  simp only [List.forall_mem_map, Pattern.mem_deriv]
  constructor
  · exact fun h u hu hlen => h (a :: u) (List.cons_prefix_cons.2 ⟨rfl, hu⟩) (by simpa using hlen)
  · intro h u hu hlen
    cases u with
    | nil => simp at hlen
    | cons b u =>
        obtain ⟨rfl, hus⟩ := List.cons_prefix_cons.1 hu
        exact h u hus (by simpa using hlen)

theorem longestMatch_nil_iff {ps : List (Pattern α)} {a : α} {s : List α} {i : Nat} :
    LongestMatch ps (a :: s) i [] ↔
      FirstMatch ps i [] ∧ longest (ps.map (Pattern.deriv a)) s = none := by
  rw [LongestMatch, longest_eq_none_iff]
  simp only [List.nil_prefix, true_and, List.length_nil, List.forall_mem_map, Pattern.mem_deriv]
  refine and_congr Iff.rfl ?_
  constructor
  · exact fun h w hw => h (a :: w) (List.cons_prefix_cons.2 ⟨rfl, hw⟩) (by simp)
  · intro h u hu hlen
    cases u with
    | nil => simp at hlen
    | cons b u =>
        obtain ⟨rfl, hus⟩ := List.cons_prefix_cons.1 hu
        exact h u hus

theorem longest_eq_some_iff {ps : List (Pattern α)} {s : List α} {n i : Nat} :
    longest ps s = some (n, i) ↔ n ≤ s.length ∧ LongestMatch ps s i (s.take n) := by
  induction s generalizing ps n with
  | nil =>
      have hmax : ∀ u : List α, u <+: [] → ¬0 < u.length := by simp
      simp only [longest, Option.map_eq_some_iff, Prod.mk.injEq, firstNullable_eq_some_iff,
        LongestMatch, List.take_nil, List.length_nil, Nat.le_zero_eq]
      constructor
      · rintro ⟨j, hj, rfl, rfl⟩
        exact ⟨rfl, List.nil_prefix, hj, fun u hu hlen => absurd hlen (hmax u hu)⟩
      · rintro ⟨rfl, _, hi, _⟩
        exact ⟨i, hi, rfl, rfl⟩
  | cons a s ih =>
      rw [longest]
      cases n with
      | zero =>
          rw [List.take_zero, longestMatch_nil_iff, ← firstNullable_eq_some_iff]
          cases longest (ps.map (Pattern.deriv a)) s with
          | none => simp
          | some r => simp
      | succ n =>
          rw [List.take_succ_cons, longestMatch_cons_iff, List.length_cons,
            Nat.add_le_add_iff_right, ← ih]
          cases longest (ps.map (Pattern.deriv a)) s with
          | none => simp
          | some r =>
              obtain ⟨m, j⟩ := r
              simp

/-! ## Running a scanner -/

/-- A piece of the input: the pattern that was taken, or none for a left-over character. -/
structure Piece (α : Type) where
  rule : Option Nat
  text : List α

/-- The pieces of a text from the character after the first `skip`. -/
def pieces (ps : List (Pattern α)) : Nat → List α → List (Piece α)
  | _, [] => []
  | skip + 1, _ :: s => pieces ps skip s
  | 0, a :: s =>
      match longest ps (a :: s) with
      | some (n + 1, i) => { rule := some i, text := a :: s.take n } :: pieces ps n s
      | _ => { rule := none, text := [a] } :: pieces ps 0 s

/-- The text is split, longest match first, into texts of the patterns with nothing left over. -/
inductive Tokenizes (ps : List (Pattern α)) : List α → List (Nat × List α) → Prop where
  | nil : Tokenizes ps [] []
  | cons {s w : List α} {i : Nat} {rest : List (Nat × List α)} :
      w ≠ [] → LongestMatch ps (w ++ s) i w → Tokenizes ps s rest →
      Tokenizes ps (w ++ s) ((i, w) :: rest)

theorem pieces_skip (ps : List (Pattern α)) (n : Nat) (s : List α) :
    pieces ps n s = pieces ps 0 (s.drop n) := by
  induction n generalizing s with
  | zero => rfl
  | succ n ih =>
      cases s with
      | nil => simp [pieces]
      | cons a s => exact ih s

/-- A character behind which no pattern goes on is a piece of its own. -/
theorem pieces_single {ps : List (Pattern α)} {a : α} {i : Nat}
    (hfirst : firstNullable (ps.map (Pattern.deriv a)) = some i)
    (hshort : ∀ P ∈ ps.map (Pattern.deriv a), P.matchesNoMore = true) (s : List α) :
    pieces ps 0 (a :: s) = { rule := some i, text := [a] } :: pieces ps 0 s := by
  have hlongest : longest (ps.map (Pattern.deriv a)) s = some (0, i) := by
    rw [longest_eq_some_iff]
    refine ⟨Nat.zero_le _, List.nil_prefix, firstNullable_eq_some_iff.1 hfirst, ?_⟩
    intro u _ hlen P hP hu
    rw [Pattern.eq_nil_of_matchesNoMore (hshort P hP) hu] at hlen
    exact absurd hlen (Nat.lt_irrefl 0)
  rw [pieces, longest, hlongest]
  rfl

/-- The text of a piece is one that its pattern matches. -/
theorem mem_language_of_piece {ps : List (Pattern α)} {skip : Nat} {s : List α} {p : Piece α}
    (hp : p ∈ pieces ps skip s) {i : Nat} (hi : p.rule = some i) :
    ∃ P, ps[i]? = some P ∧ p.text ∈ P.language := by
  induction s generalizing skip with
  | nil => simp [pieces] at hp
  | cons a s ih =>
      cases skip with
      | succ skip => exact ih hp
      | zero =>
          rw [pieces] at hp
          split at hp
          · next n j hchoice =>
              rcases List.mem_cons.1 hp with rfl | hp
              · obtain rfl : j = i := Option.some.inj hi
                exact (longest_eq_some_iff.1 hchoice).2.2.1.1
              · exact ih hp
          · rcases List.mem_cons.1 hp with rfl | hp
            · cases hi
            · exact ih hp

/-- A run without left-over characters splits the text. -/
theorem tokenizes_iff_pieces {ps : List (Pattern α)} {s : List α} {ws : List (Nat × List α)} :
    Tokenizes ps s ws ↔
      pieces ps 0 s = ws.map fun iw => { rule := some iw.1, text := iw.2 } := by
  constructor
  · intro h
    induction h with
    | nil => rfl
    | @cons s w i rest hne hlongest hrest ih =>
        obtain ⟨a, w, rfl⟩ := List.exists_cons_of_ne_nil hne
        have hchoice : longest ps (a :: (w ++ s)) = some (w.length + 1, i) := by
          rw [longest_eq_some_iff]
          refine ⟨by simp, ?_⟩
          simpa using hlongest
        rw [List.cons_append, pieces, hchoice]
        simp [pieces_skip ps w.length, ih]
  · -- Induction on the pieces: the text follows from them.
    induction ws generalizing s with
    | nil =>
        intro h
        cases s with
        | nil => exact .nil
        | cons a s =>
            rw [pieces] at h
            split at h <;> cases h
    | cons iw ws ih =>
        intro h
        cases s with
        | nil => cases h
        | cons a s =>
            rw [pieces] at h
            split at h
            · next n i hchoice =>
                obtain ⟨hpiece, htail⟩ := List.cons.inj h
                obtain ⟨hi, hw⟩ := Piece.mk.inj hpiece
                obtain ⟨i', w⟩ := iw
                obtain rfl : i = i' := Option.some.inj hi
                obtain rfl : a :: s.take n = w := hw
                rw [pieces_skip] at htail
                -- The first text is the longest match, and the rest are the pieces behind it.
                have hsplit : a :: s = (a :: s.take n) ++ s.drop n := by simp
                have hlongest := (longest_eq_some_iff.1 hchoice).2
                rw [hsplit]
                refine .cons (by simp) ?_ (ih htail)
                rw [← hsplit]
                simpa using hlongest
            · cases (Piece.mk.inj (List.cons.inj h).1).1

/-- At most one splitting. -/
theorem Tokenizes.unique {ps : List (Pattern α)} {s : List α} {ws vs : List (Nat × List α)}
    (h : Tokenizes ps s ws) (h' : Tokenizes ps s vs) : ws = vs := by
  have heq := (tokenizes_iff_pieces.1 h).symm.trans (tokenizes_iff_pieces.1 h')
  refine List.map_injective_iff.2 ?_ heq
  rintro ⟨i, w⟩ ⟨j, v⟩ hpiece
  obtain ⟨hi, hw⟩ := Piece.mk.inj hpiece
  exact Prod.ext (Option.some.inj hi) hw

end Lib
end Secondary
