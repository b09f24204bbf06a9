import Secondary.Parser.LexTablesSpec

/-!
# LexYYSpec — the compiled scanner makes the tokens of `tokenizer.l`

A token starts at `p`, and `t` is the query from there.  The scanner goes through the states that
the characters of `t` lead to; whatever it does at a NUL, it comes back to these states, and what it
takes in the end is the longest match.
-/

namespace Secondary

open Lib

/-! ## States of a token -/

/-- The state behind the first `k` characters. -/
def lexState (t : List UInt8) (k : Nat) : Nat :=
  lexAutomaton.run 1 (t.take k)

/-- The rule that is accepted in a state, counted from `1`. -/
def lexAccept (q : Nat) : Nat :=
  look packedAccept q

section States

variable {t : List UInt8} {k m : Nat} {b : UInt8}

@[simp] theorem lexState_zero (t : List UInt8) : lexState t 0 = 1 := rfl

theorem lexState_succ (h : t[k]? = some b) :
    lexState t (k + 1) = lexAutomaton.step (lexState t k) b := by
  rw [lexState, List.take_add_one, h, Option.toList_some, Automaton.run_concat]
  rfl

theorem liveState_lexState (t : List UInt8) (k : Nat) : liveState (lexState t k) = true := by
  induction k with
  | zero => exact liveState_iff.2 (Or.inl rfl)
  | succ k ih =>
      cases h : t[k]? with
      | none =>
          have hle : t.length ≤ k := List.getElem?_eq_none_iff.1 h
          have hsame : lexState t (k + 1) = lexState t k := by
            rw [lexState, lexState, List.take_of_length_le (Nat.le_succ_of_le hle),
              List.take_of_length_le hle]
          rwa [hsame]
      | some b =>
          rw [lexState_succ h]
          exact (class_step ih b).2.1

theorem lexState_ne_zero (t : List UInt8) (k : Nat) : lexState t k ≠ 0 := by
  rcases liveState_iff.1 (liveState_lexState t k) with h | h
  · rw [h]
    decide
  · omega

/-- Behind a state that the loop stops at, no rule is accepted. -/
theorem accept_behind_stop (hstop : look packedBase (lexState t k) = yyJamBase) (hkm : k < m)
    (hm : m ≤ t.length) : lexAccept (lexState t m) = 0 := by
  have hjam : lexState t m = yyJam := by
    induction m with
    | zero => exact absurd hkm (Nat.not_lt_zero k)
    | succ m ih =>
        have hget : t[m]? = some t[m] := List.getElem?_eq_getElem hm
        rw [lexState_succ hget]
        rcases Nat.lt_succ_iff_lt_or_eq.1 hkm with hlt | rfl
        · -- The jam state is not left.
          apply (class_step (liveState_lexState t m) _).2.2
          rw [ih hlt (Nat.le_of_succ_le hm)]
          exact base_yyJam
        · exact (class_step (liveState_lexState t k) _).2.2 hstop
  rw [hjam]
  exact accept_yyJam

theorem accept_first_ne_zero (ht : t ≠ []) : lexAccept (lexState t 1) ≠ 0 := by
  obtain ⟨b, w, rfl⟩ := List.exists_cons_of_ne_nil ht
  exact accept_first b

/-- The last accepting state up to `k`. -/
theorem exists_last_accepting (ht : t ≠ []) :
    ∀ {k : Nat}, 1 ≤ k → ∃ j, 1 ≤ j ∧ j ≤ k ∧ lexAccept (lexState t j) ≠ 0 ∧
      ∀ i, j < i → i ≤ k → lexAccept (lexState t i) = 0 := by
  intro k hk
  induction k with
  | zero => exact absurd hk (Nat.not_succ_le_zero 0)
  | succ k ih =>
      by_cases hacc : lexAccept (lexState t (k + 1)) = 0
      · have hk' : 1 ≤ k := by
          rcases Nat.eq_zero_or_pos k with rfl | hpos
          · exact absurd hacc (accept_first_ne_zero ht)
          · exact hpos
        obtain ⟨j, hj, hjk, hjacc, hafter⟩ := ih hk'
        refine ⟨j, hj, Nat.le_succ_of_le hjk, hjacc, ?_⟩
        intro i hji hik
        rcases Nat.le_succ_iff.1 hik with hle | rfl
        · exact hafter i hji hle
        · exact hacc
      · exact ⟨k + 1, hk, Nat.le_refl _, hacc, fun i hi hi' => absurd hi' (Nat.not_le_of_lt hi)⟩

/-- The last accepting state is where the longest match ends. -/
theorem longest_of_last (hm : m ≤ t.length) (hacc : lexAccept (lexState t m) ≠ 0)
    (hlast : ∀ i, m < i → i ≤ t.length → lexAccept (lexState t i) = 0) :
    longest lexPatternsDefault t = some (m, lexAccept (lexState t m) - 1) := by
  rw [← lexAutomaton_longest, Automaton.longest_eq_some_iff]
  refine ⟨hm, ?_, ?_⟩
  · rw [lexAutomaton_accept]
    exact if_neg hacc
  · intro i hi hi'
    rw [lexAutomaton_accept]
    exact if_pos (hlast i hi hi')

end States

/-! ## The buffer -/

/-- The buffer from `p` on is `t` and the marks of its end. -/
structure Buffer (y : YYScanner) (p : Nat) (t : List UInt8) : Prop where
  rest : y.chBuf.drop p = t ++ [0, 0]
  nChars : y.nChars = p + t.length
  length : y.chBuf.length = p + t.length + 2

/-- The scanner with another last accepting state. -/
def YYScanner.noted (y : YYScanner) (q cp : Nat) : YYScanner :=
  { y with lastAcceptingState := q, lastAcceptingCpos := cp }

/-- The last accepting state before the `k`-th character is on record. -/
def Noted (y : YYScanner) (p : Nat) (t : List UInt8) (k : Nat) : Prop :=
  ∀ j < k, lexAccept (lexState t j) ≠ 0 →
    (∀ i, j < i → i < k → lexAccept (lexState t i) = 0) →
      y.lastAcceptingState = lexState t j ∧ y.lastAcceptingCpos = p + j

section Reads

variable {y : YYScanner} {p k : Nat} {t : List UInt8} {b : UInt8}

namespace Buffer

theorem getElem? (h : Buffer y p t) (k : Nat) : y.chBuf[p + k]? = (t ++ [0, 0])[k]? := by
  rw [← h.rest, List.getElem?_drop]

theorem charAt (h : Buffer y p t) (hk : t[k]? = some b) : y.charAt (p + k) = .ok b := by
  have hlt : k < t.length := (List.getElem?_eq_some_iff.1 hk).1
  rw [YYScanner.charAt, h.getElem?, List.getElem?_append_left hlt, hk]
  rfl

theorem charAt_end (h : Buffer y p t) : y.charAt (p + t.length) = .ok 0 := by
  rw [YYScanner.charAt, h.getElem?, List.getElem?_append_right (Nat.le_refl _), Nat.sub_self]
  rfl

/-- There is one more character than the loop needs. -/
theorem exists_charAt (h : Buffer y p t) (hk : k ≤ t.length + 1) :
    ∃ b, y.charAt (p + k) = .ok b ∧ y.chBuf[p + k]? = some b := by
  have hlt : p + k < y.chBuf.length := by
    rw [h.length]
    omega
  have hget := List.getElem?_eq_getElem hlt
  exact ⟨_, by rw [YYScanner.charAt, hget]; rfl, hget⟩

theorem noted (h : Buffer y p t) (q cp : Nat) : Buffer (y.noted q cp) p t :=
  ⟨h.rest, h.nChars, h.length⟩

end Buffer

theorem exists_noted (y : YYScanner) : ∃ q cp, y = y.noted q cp :=
  ⟨y.lastAcceptingState, y.lastAcceptingCpos, rfl⟩

theorem noted_zero (y : YYScanner) (p : Nat) (t : List UInt8) : Noted y p t 0 :=
  fun j hj => absurd hj (Nat.not_lt_zero j)

/-- The state behind `k` characters is noted if it is accepting. -/
theorem note_lexState (y : YYScanner) (p : Nat) (t : List UInt8) (k : Nat)
    (hnoted : Noted y p t k) :
    ∃ q cp, y.note (lexState t k) (p + k) = .ok (y.noted q cp) ∧
      Noted (y.noted q cp) p t (k + 1) := by
  rw [YYScanner.note, yyAt_yyAccept (lt_of_liveState (liveState_lexState t k)), ok_bind]
  by_cases hacc : lexAccept (lexState t k) = 0
  · refine ⟨y.lastAcceptingState, y.lastAcceptingCpos, if_neg (not_not.2 hacc), ?_⟩
    intro j hj hjacc hafter
    rcases Nat.lt_succ_iff_lt_or_eq.1 hj with hlt | rfl
    · exact hnoted j hlt hjacc fun i hji hik => hafter i hji (Nat.lt_succ_of_lt hik)
    · exact absurd hacc hjacc
  · refine ⟨lexState t k, p + k, if_pos hacc, ?_⟩
    intro j hj hjacc hafter
    rcases Nat.lt_succ_iff_lt_or_eq.1 hj with hlt | rfl
    · exact absurd (hafter k hlt (Nat.lt_succ_self k)) hacc
    · exact ⟨rfl, rfl⟩

/-- A record up to `k + 1` is one up to `k`, where `k` is not accepting. -/
theorem Noted.of_succ (h : Noted y p t (k + 1)) (hacc : lexAccept (lexState t k) = 0) :
    Noted y p t k := by
  intro j hj hjacc hafter
  refine h j (Nat.lt_succ_of_lt hj) hjacc fun i hji hik => ?_
  rcases Nat.lt_succ_iff_lt_or_eq.1 hik with hlt | rfl
  · exact hafter i hji hlt
  · exact hacc

end Reads

/-! ## The loop -/

section Loop

variable {y : YYScanner} {p k : Nat} {t : List UInt8}

/-- At a NUL the loop goes to the state of the end of the buffer, notes it and stops. -/
theorem yyMatch_nul {q cp : Nat} (hq : liveState q = true) {b : UInt8}
    (hnul : y.charAt cp = .ok 0) (hnext : y.charAt (cp + 1) = .ok b) (fuel : Nat) :
    yyMatch (fuel + 2) y q cp = .ok (y.noted 3 (cp + 1), yyJam, cp + 2) := by
  have hec : yyAt yyEc (0 : UInt8).toNat = .ok 0 := by
    rw [yyAt_yyEc (by decide)]
    exact congrArg Except.ok ec_nul
  obtain ⟨q', cp', hnote⟩ : ∃ q' cp', y.note q cp = .ok (y.noted q' cp') := by
    rw [YYScanner.note, yyAt_yyAccept (lt_of_liveState hq), ok_bind]
    split
    · exact ⟨_, _, rfl⟩
    · exact ⟨y.lastAcceptingState, y.lastAcceptingCpos, rfl⟩
  -- The first round ends in state 3, which has a way out, and the second finds none.
  have hfirst : yyMatch (fuel + 2) y q cp = yyMatch (fuel + 1) (y.noted q' cp') 3 (cp + 1) := by
    rw [yyMatch, hnul, ok_bind, hec, ok_bind, hnote, ok_bind, yyNextState_end hq, ok_bind,
      yyAt_yyBase (by decide), ok_bind, if_pos base_behindEnd]
  have hnote' : (y.noted q' cp').note 3 (cp + 1) = .ok (y.noted 3 (cp + 1)) := by
    rw [YYScanner.note, yyAt_yyAccept (by decide), ok_bind, accept_behindEnd]
    rfl
  have hchar : (y.noted q' cp').charAt (cp + 1) = .ok b := hnext
  rw [hfirst, yyMatch, hchar, ok_bind, yyAt_yyEc b.toNat_lt, ok_bind, hnote', ok_bind,
    yyNextState_behindEnd, ok_bind, yyAt_yyBase (by decide), ok_bind,
    if_neg (not_not.2 base_yyJam)]

/-- The loop ends in a state that it stops at, or at a NUL; the NUL may be the end of the buffer. -/
theorem yyMatch_spec (n : Nat) :
    ∀ {k fuel : Nat} {y : YYScanner}, Buffer y p t → t.length - k = n → k ≤ t.length →
      lexState t k ≠ yyJam → n + 2 ≤ fuel → Noted y p t k →
      (∃ m q cp, k < m ∧ m ≤ t.length ∧ look packedBase (lexState t m) = yyJamBase ∧
        Noted (y.noted q cp) p t m ∧
        yyMatch fuel y (lexState t k) (p + k) = .ok (y.noted q cp, lexState t m, p + m)) ∨
      (∃ m, k ≤ m ∧ m ≤ t.length ∧ lexState t m ≠ yyJam ∧ (m < t.length → t[m]? = some 0) ∧
        yyMatch fuel y (lexState t k) (p + k) =
          .ok (y.noted 3 (p + m + 1), yyJam, p + m + 2)) := by
  induction n with
  | zero =>
      intro k fuel y hbuf hn hk hjam hfuel _
      obtain rfl : k = t.length := by omega
      obtain ⟨b, hnext, _⟩ := hbuf.exists_charAt (Nat.le_refl _)
      obtain ⟨fuel, rfl⟩ : ∃ f, fuel = f + 2 := ⟨fuel - 2, by omega⟩
      refine Or.inr ⟨t.length, Nat.le_refl _, Nat.le_refl _, hjam,
        fun hlt => absurd hlt (Nat.lt_irrefl _), ?_⟩
      exact yyMatch_nul (liveState_lexState t _) hbuf.charAt_end hnext fuel
  | succ n ih =>
      intro k fuel y hbuf hn hk hjam hfuel hnoted
      have hlt : k < t.length := by omega
      have hget : t[k]? = some t[k] := List.getElem?_eq_getElem hlt
      by_cases hnul : t[k] = 0
      · -- A NUL of the query.
        rw [hnul] at hget
        obtain ⟨b, hnext, _⟩ := hbuf.exists_charAt (show k + 1 ≤ t.length + 1 by omega)
        obtain ⟨fuel, rfl⟩ : ∃ f, fuel = f + 2 := ⟨fuel - 2, by omega⟩
        refine Or.inr ⟨k, Nat.le_refl _, hk, hjam, fun _ => hget, ?_⟩
        exact yyMatch_nul (liveState_lexState t _) (hbuf.charAt hget) hnext fuel
      · obtain ⟨fuel, rfl⟩ : ∃ f, fuel = f + 1 := ⟨fuel - 1, by omega⟩
        obtain ⟨q, cp, hnote, hnoted'⟩ := note_lexState y p t k hnoted
        have hround : yyMatch (fuel + 1) y (lexState t k) (p + k) =
            if look packedBase (lexState t (k + 1)) ≠ yyJamBase then
              yyMatch fuel (y.noted q cp) (lexState t (k + 1)) (p + (k + 1))
            else
              .ok (y.noted q cp, lexState t (k + 1), p + (k + 1)) := by
          rw [yyMatch, hbuf.charAt hget, ok_bind, yyAt_yyEc (t[k]).toNat_lt, ok_bind, hnote,
            ok_bind, ← charClass_of_ne hnul, yyNextState_char (liveState_lexState t k), ok_bind,
            ← lexState_succ hget,
            yyAt_yyBase (Nat.lt_trans (lt_of_liveState (liveState_lexState t _)) (by decide)),
            ok_bind]
          rfl
        rw [hround]
        by_cases hstop : look packedBase (lexState t (k + 1)) = yyJamBase
        · refine Or.inl ⟨k + 1, q, cp, Nat.lt_succ_self k, hlt, hstop, hnoted', ?_⟩
          rw [if_neg (not_not.2 hstop)]
        · have hjam' : lexState t (k + 1) ≠ yyJam := by
            intro heq
            rw [heq] at hstop
            exact hstop base_yyJam
          have hfuel' : n + 2 ≤ fuel := by omega
          rw [if_pos hstop]
          rcases ih (hbuf.noted q cp) (by omega) hlt hjam' hfuel' hnoted' with
            ⟨m, q', cp', hkm, hm, hbase, hnoted'', hrun⟩ | ⟨m, hkm, hm, hmjam, hmnul, hrun⟩
          · exact Or.inl ⟨m, q', cp', Nat.lt_of_succ_lt hkm, hm, hbase, hnoted'', hrun⟩
          · exact Or.inr ⟨m, Nat.le_of_succ_le hkm, hm, hmjam, hmnul, hrun⟩

/-- The states once more, up to the character at which the loop has stopped. -/
theorem yyGetPreviousState_spec (hbuf : Buffer y p t) (htext : y.text = p)
    (hend : y.cBufP = p + k) (hk : k ≤ t.length) :
    ∃ q cp, yyGetPreviousState y = .ok (y.noted q cp, lexState t k) ∧
      Noted (y.noted q cp) p t k := by
  have hcount : y.cBufP - y.text = k := by omega
  rw [yyGetPreviousState, hcount, htext]
  obtain ⟨⟨y', q⟩, hrun, ⟨q', cp, rfl⟩, rfl, hnoted⟩ := foldlM_range_ok
    (s := (y, 1))
    (f := fun (r : YYScanner × Nat) i => do
      let b ← r.1.charAt (p + i)
      let c ← if b ≠ 0 then yyAt yyEc b.toNat else .ok 1
      let y ← r.1.note r.2 (p + i)
      let q ← yyNextState r.2 c
      .ok (y, q))
    (n := k)
    (fun i r => (∃ q cp, r.1 = y.noted q cp) ∧ r.2 = lexState t i ∧ Noted r.1 p t i)
    ⟨exists_noted y, rfl, noted_zero y p t⟩
    (by
      rintro i hi ⟨y', q⟩ ⟨⟨q', cp, rfl⟩, rfl, hnoted⟩
      have hget : t[i]? = some t[i] := List.getElem?_eq_getElem (Nat.lt_of_lt_of_le hi hk)
      obtain ⟨q, cp', hnote, hnoted'⟩ := note_lexState (y.noted q' cp) p t i hnoted
      refine ⟨((y.noted q' cp).noted q cp', lexState t (i + 1)), ?_, ⟨q, cp', rfl⟩, rfl, hnoted'⟩
      have hstep := yyNextState_char (liveState_lexState t i) t[i]
      simp only [(hbuf.noted q' cp).charAt hget, ok_bind, lexState_succ hget]
      by_cases hnul : t[i] = 0
      · rw [charClass, if_pos hnul] at hstep
        rw [if_neg (not_not.2 hnul)]
        simp only [hnote, ok_bind, hstep]
      · rw [charClass_of_ne hnul] at hstep
        rw [if_pos hnul, yyAt_yyEc (t[i]).toNat_lt]
        simp only [hnote, ok_bind, hstep])
  exact ⟨q', cp, hrun, hnoted⟩

end Loop

/-! ## One token -/

/-- The scanner when it has taken `m` characters. -/
def YYScanner.taken (y : YYScanner) (p m : Nat) (hold : UInt8) : YYScanner :=
  { y with chBuf := y.chBuf.set (p + m) 0, text := p, holdChar := hold, cBufP := p + m }

/-- The scanner back at the mark of the end of the buffer, or at what looks like it. -/
def YYScanner.stopped (y : YYScanner) (p cp : Nat) (hold : UInt8) : YYScanner :=
  { y with text := p, holdChar := hold, cBufP := cp }

section Token

variable {y : YYScanner} {p k m : Nat} {t : List UInt8}

theorem setChar_ok {i : Nat} {b b' : UInt8} (h : y.chBuf[i]? = some b') :
    y.setChar i b = .ok { y with chBuf := y.chBuf.set i b } :=
  if_pos (List.getElem?_eq_some_iff.1 h).1

theorem charAt_ok {i : Nat} {b : UInt8} (h : y.chBuf[i]? = some b) : y.charAt i = .ok b := by
  rw [YYScanner.charAt, h]
  rfl

theorem yyFindAction_here {q : Nat} {b : UInt8} (hq : q < 109) (hacc : lexAccept q ≠ 0)
    (hget : y.chBuf[p + m]? = some b) :
    yyFindAction y p q (p + m) = .ok (y.taken p m b, lexAccept q) := by
  rw [yyFindAction, yyAt_yyAccept hq, ok_bind]
  simp only [show look packedAccept q ≠ 0 from hacc, if_false, ok_bind, charAt_ok hget,
    setChar_ok hget]
  rfl

theorem yyFindAction_back {q cp : Nat} {b : UInt8} (hq : q < 109) (hacc : lexAccept q = 0)
    (hstate : y.lastAcceptingState < 109) (hcpos : y.lastAcceptingCpos = p + m)
    (hget : y.chBuf[p + m]? = some b) :
    yyFindAction y p q cp = .ok (y.taken p m b, lexAccept y.lastAcceptingState) := by
  rw [yyFindAction, yyAt_yyAccept hq, ok_bind]
  simp only [show look packedAccept q = 0 from hacc, if_true, yyAt_yyAccept hstate, ok_bind, hcpos,
    charAt_ok hget, setChar_ok hget, YYScanner.taken, lexAccept]

/-- What `yy_find_action` takes, where its state is the last one or has been left. -/
theorem yyFindAction_spec (hbuf : Buffer y p t) (ht : t ≠ []) (hk : 1 ≤ k) (hkt : k ≤ t.length)
    (hnoted : lexAccept (lexState t k) = 0 → Noted y p t k)
    (hlast : ∀ i, k < i → i ≤ t.length → lexAccept (lexState t i) = 0) :
    ∃ m b, 1 ≤ m ∧ m ≤ t.length ∧ lexAccept (lexState t m) ≠ 0 ∧
      longest lexPatternsDefault t = some (m, lexAccept (lexState t m) - 1) ∧
      y.chBuf[p + m]? = some b ∧
      yyFindAction y p (lexState t k) (p + k) =
        .ok (y.taken p m b, lexAccept (lexState t m)) := by
  obtain ⟨m, hm, hmk, hacc, hafter⟩ := exists_last_accepting ht hk
  have hmt : m ≤ t.length := Nat.le_trans hmk hkt
  have hlast' : ∀ i, m < i → i ≤ t.length → lexAccept (lexState t i) = 0 := by
    intro i hi hit
    rcases Nat.lt_or_ge k i with hki | hik
    · exact hlast i hki hit
    · exact hafter i hi hik
  obtain ⟨b, _, hget⟩ := hbuf.exists_charAt (Nat.le_succ_of_le hmt)
  refine ⟨m, b, hm, hmt, hacc, longest_of_last hmt hacc hlast', hget, ?_⟩
  have hlive := lt_of_liveState (liveState_lexState t k)
  -- The token ends in the present state, or in the one on record.
  by_cases hk0 : lexAccept (lexState t k) = 0
  · have hne : m ≠ k := by
      rintro rfl
      exact hacc hk0
    obtain ⟨hstate, hcpos⟩ := hnoted hk0 m (Nat.lt_of_le_of_ne hmk hne) hacc
      fun i hi hik => hafter i hi (Nat.le_of_lt hik)
    have hlive' : y.lastAcceptingState < 109 := by
      rw [hstate]
      exact lt_of_liveState (liveState_lexState t m)
    rw [yyFindAction_back hlive hk0 hlive' hcpos hget, hstate]
  · have hsame : m = k := by
      rcases Nat.lt_or_eq_of_le hmk with hlt | heq
      · exact absurd (hafter k hlt (Nat.le_refl k)) hk0
      · exact heq
    subst hsame
    exact yyFindAction_here hlive hacc hget

/-- At the mark of the end of the buffer, `yy_find_action` takes the mark. -/
theorem yyFindAction_end (hbuf : Buffer y p t) (hm : m ≤ t.length) :
    ∃ b, y.chBuf[p + (m + 1)]? = some b ∧
      yyFindAction (y.noted 3 (p + m + 1)) p yyJam (p + m + 2) =
        .ok ((y.noted 3 (p + m + 1)).taken p (m + 1) b, yyEndOfBuffer) := by
  obtain ⟨b, _, hget⟩ := hbuf.exists_charAt (Nat.succ_le_succ hm)
  refine ⟨b, hget, ?_⟩
  have hget' : (y.noted 3 (p + m + 1)).chBuf[p + (m + 1)]? = some b := hget
  rw [yyFindAction_back (by decide) accept_yyJam (by decide : 3 < 109) rfl hget']
  exact congrArg (fun act => Except.ok (_, act)) accept_behindEnd

/-- The NUL that marks the end of `yytext` is taken back. -/
theorem setChar_back {b : UInt8} (hget : y.chBuf[p + (m + 1)]? = some b) :
    ((y.noted 3 (p + m + 1)).taken p (m + 1) b).setChar (p + (m + 1)) b =
      .ok ((y.noted 3 (p + m + 1)).stopped p (p + (m + 1)) b) := by
  have hlt := (List.getElem?_eq_some_iff.1 hget).1
  have hsame : (y.chBuf.set (p + (m + 1)) 0).set (p + (m + 1)) b = y.chBuf := by
    rw [List.set_set]
    apply List.ext_getElem?
    intro i
    rw [List.getElem?_set]
    split
    · next heq =>
        subst heq
        exact hget.symm
    · rfl
  rw [YYScanner.setChar, if_pos (by simpa [YYScanner.taken, YYScanner.noted] using hlt)]
  exact congrArg (fun l => Except.ok { (y.noted 3 (p + m + 1)).stopped p (p + (m + 1)) b with
    chBuf := l }) hsame

/-- What `yylex` finds when a token has been taken. -/
structure TokenEnd (y y' : YYScanner) (p m : Nat) : Prop where
  chBuf : y'.chBuf = y.chBuf.set (p + m) 0
  nChars : y'.nChars = y.nChars
  cBufP : y'.cBufP = p + m
  text : y'.text = p
  hold : y.chBuf[p + m]? = some y'.holdChar

/-- The token is the longest match, and its rule is the first that matches it. -/
def TakesLongest (y : YYScanner) (p : Nat) (t : List UInt8)
    (r : Exec (YYScanner × Option Nat)) : Prop :=
  ∃ y' m i, r = .ok (y', some (i + 1)) ∧ 1 ≤ m ∧ m ≤ t.length ∧
    longest lexPatternsDefault t = some (m, i) ∧ TokenEnd y y' p m

/-- From `yy_find_action` the scanner takes the longest match. -/
theorem yyToken_findAction {y₀ : YYScanner} (hsame : y.chBuf = y₀.chBuf ∧ y.nChars = y₀.nChars)
    (hbuf : Buffer y p t) (ht : t ≠ []) (hk : 1 ≤ k) (hkt : k ≤ t.length)
    (hnoted : lexAccept (lexState t k) = 0 → Noted y p t k)
    (hlast : ∀ i, k < i → i ≤ t.length → lexAccept (lexState t i) = 0) (fuel : Nat) :
    TakesLongest y₀ p t (yyToken (fuel + 1) y p (.yyFindAction (lexState t k) (p + k))) := by
  obtain ⟨m, b, hm, hmt, hacc, hlongest, hget, hrun⟩ :=
    yyFindAction_spec hbuf ht hk hkt hnoted hlast
  have hrule : lexAccept (lexState t m) < 34 := accept_lt (liveState_lexState t m)
  have hnotEnd : ¬lexAccept (lexState t m) = yyEndOfBuffer := Nat.ne_of_lt hrule
  have hnotFatal : ¬yyEndOfBuffer < lexAccept (lexState t m) := Nat.not_lt_of_lt hrule
  refine ⟨y.taken p m b, m, lexAccept (lexState t m) - 1, ?_, hm, hmt, hlongest,
    ⟨by rw [← hsame.1]; rfl, hsame.2, rfl, rfl, by rw [← hsame.1]; exact hget⟩⟩
  have hback : lexAccept (lexState t m) - 1 + 1 = lexAccept (lexState t m) :=
    Nat.sub_add_cancel (Nat.one_le_iff_ne_zero.2 hacc)
  rw [yyToken, hrun, ok_bind, if_neg hacc, if_neg hnotEnd, if_neg hnotFatal, hback]

/-- The scanner comes back to the state in which it has met the mark of the end of the buffer. -/
theorem yyEndOfBufferAction_eq {b : UInt8} (hget : y.chBuf[p + (m + 1)]? = some b) :
    yyEndOfBufferAction ((y.noted 3 (p + m + 1)).taken p (m + 1) b) =
      if p + (m + 1) ≤ y.nChars then do
        let r ← yyGetPreviousState ((y.noted 3 (p + m + 1)).stopped p (p + m) b)
        let s ← yyTryNulTrans r.1 r.2
        if s.2 ≠ 0 then
          .ok ({ s.1 with cBufP := s.1.cBufP + 1 }, some (.yyMatch s.2 (s.1.cBufP + 1)))
        else
          .ok (s.1, some (.yyFindAction r.2 s.1.cBufP))
      else if p + (m + 1) - p = 1 then
        .ok ((y.noted 3 (p + m + 1)).stopped p p b, none)
      else
        yyGetPreviousState ((y.noted 3 (p + m + 1)).stopped p y.nChars b) >>= fun r =>
          .ok (r.1, some (.yyFindAction r.2 r.1.cBufP)) := by
  have hback := setChar_back hget
  have hamount : p + (p + (m + 1) - p - 1) = p + m := by omega
  rw [yyEndOfBufferAction]
  show (((y.noted 3 (p + m + 1)).taken p (m + 1) b).setChar (p + (m + 1)) b >>= _) = _
  rw [hback, ok_bind]
  show (if p + (m + 1) ≤ y.nChars then (yyGetPreviousState
    ((y.noted 3 (p + m + 1)).stopped p (p + (p + (m + 1) - p - 1)) b) >>= _) else _) = _
  rw [hamount]
  rfl

theorem yyTryNulTrans_spec (hcp : y.cBufP = p + m) (hnul : t[m]? = some 0)
    (hnoted : Noted y p t m) :
    ∃ q cp, yyTryNulTrans y (lexState t m) =
        .ok (y.noted q cp, if lexState t (m + 1) = yyJam then 0 else lexState t (m + 1)) ∧
      Noted (y.noted q cp) p t (m + 1) := by
  obtain ⟨q, cp, hnote, hnoted'⟩ := note_lexState y p t m hnoted
  have hstep : yyNextState (lexState t m) 1 = .ok (lexState t (m + 1)) := by
    rw [lexState_succ hnul]
    exact yyNextState_char (liveState_lexState t m) 0
  refine ⟨q, cp, ?_, hnoted'⟩
  rw [yyTryNulTrans, hcp, hnote, ok_bind, hstep, ok_bind]

/-- A token is not empty: at its first character some rule is accepted. -/
theorem pos_of_jam (hlt : m < t.length) (hjam : lexState t (m + 1) = yyJam) : 1 ≤ m := by
  rcases Nat.eq_zero_or_pos m with rfl | hpos
  · have hne : t ≠ [] := List.ne_nil_of_length_pos hlt
    have haccept := accept_first_ne_zero hne
    rw [hjam] at haccept
    exact absurd accept_yyJam haccept
  · exact hpos

/-- A token is the longest match, wherever the scanner has got to. -/
theorem yyToken_spec {y₀ : YYScanner} (ht : t ≠ []) (n : Nat) :
    ∀ {k fuel : Nat} {y : YYScanner}, y.chBuf = y₀.chBuf ∧ y.nChars = y₀.nChars → Buffer y p t →
      t.length - k = n → k ≤ t.length → lexState t k ≠ yyJam → 2 * n + 3 ≤ fuel → Noted y p t k →
      TakesLongest y₀ p t (yyToken fuel y p (.yyMatch (lexState t k) (p + k))) := by
  induction n using Nat.strong_induction_on with
  | _ n ih =>
      intro k fuel y hsame hbuf hn hk hjam hfuel hnoted
      obtain ⟨fuel, rfl⟩ : ∃ f, fuel = f + 3 := ⟨fuel - 3, by omega⟩
      have hloop : n + 2 ≤ y.chBuf.length + 1 := by
        rw [hbuf.length]
        omega
      rcases yyMatch_spec n hbuf hn hk hjam hloop hnoted with
        ⟨m, q, cp, hkm, hm, hstop, hnoted', hrun⟩ | ⟨m, hkm, hm, hmjam, hmnul, hrun⟩
      · -- The loop has stopped in a state that no token goes on from.
        rw [yyToken, hrun, ok_bind]
        exact yyToken_findAction (y := y.noted q cp) hsame (hbuf.noted q cp) ht
          (Nat.one_le_of_lt hkm) hm (fun _ => hnoted') (fun i hi hit => accept_behind_stop hstop hi hit) (fuel + 1)
      · obtain ⟨b, hget, hend⟩ := yyFindAction_end hbuf hm
        have hbuf' : ∀ i, Buffer ((y.noted 3 (p + m + 1)).stopped p i b) p t :=
          fun i => ⟨hbuf.rest, hbuf.nChars, hbuf.length⟩
        rw [yyToken, hrun, ok_bind, yyToken, hend, ok_bind,
          if_neg (show yyEndOfBuffer ≠ 0 by decide), if_pos rfl]
        show TakesLongest y₀ p t (yyEndOfBufferAction
          ((y.noted 3 (p + m + 1)).taken p (m + 1) b) >>= _)
        rw [yyEndOfBufferAction_eq hget, hbuf.nChars]
        rcases Nat.lt_or_eq_of_le hm with hlt | rfl
        · -- It was a NUL of the query.
          obtain ⟨q, cp, hprev, hnoted₁⟩ := yyGetPreviousState_spec (hbuf' (p + m)) rfl rfl hm
          obtain ⟨q', cp', htry, hnoted₂⟩ := yyTryNulTrans_spec
            (y := ((y.noted 3 (p + m + 1)).stopped p (p + m) b).noted q cp) rfl (hmnul hlt) hnoted₁
          rw [if_pos (by omega), hprev, ok_bind, htry, ok_bind]
          by_cases hnext : lexState t (m + 1) = yyJam
          · -- No token goes on with it.
            simp only [hnext, if_true, ne_eq, not_true_eq_false, if_false, ok_bind]
            have hpos := pos_of_jam hlt hnext
            refine yyToken_findAction (y := (((y.noted 3 (p + m + 1)).stopped p (p + m) b).noted
              q cp).noted q' cp') hsame ⟨hbuf.rest, hbuf.nChars, hbuf.length⟩ ht hpos hm
              (fun h => hnoted₂.of_succ h) ?_ fuel
            intro i hi hit
            rcases Nat.lt_or_eq_of_le (Nat.succ_le_of_lt hi) with hgt | rfl
            · refine accept_behind_stop ?_ hgt hit
              rw [hnext]
              exact base_yyJam
            · rw [hnext]
              exact accept_yyJam
          · simp only [hnext, if_false, ne_eq, lexState_ne_zero t (m + 1), not_false_eq_true,
              if_true, ok_bind]
            have hfuel' : 2 * (t.length - (m + 1)) + 3 ≤ fuel + 1 := by omega
            exact ih (t.length - (m + 1)) (by omega) (y := { (((y.noted 3 (p + m + 1)).stopped p
              (p + m) b).noted q cp).noted q' cp' with cBufP := p + m + 1 }) hsame
              ⟨hbuf.rest, hbuf.nChars, hbuf.length⟩ rfl hlt hnext hfuel' hnoted₂
        · -- It was the end of the buffer, and some text is left.
          have hlen : 0 < t.length := List.length_pos_of_ne_nil ht
          obtain ⟨q, cp, hprev, hnoted₁⟩ :=
            yyGetPreviousState_spec (hbuf' (p + t.length)) rfl rfl (Nat.le_refl _)
          rw [if_neg (by omega), if_neg (by omega), hprev, ok_bind]
          exact yyToken_findAction (y := ((y.noted 3 (p + t.length + 1)).stopped p
            (p + t.length) b).noted q cp) hsame ⟨hbuf.rest, hbuf.nChars, hbuf.length⟩ ht hlen
            (Nat.le_refl _) (fun _ => hnoted₁)
            (fun i hi hit => absurd hit (Nat.not_le_of_lt hi)) fuel

/-- At the end of the buffer there is no token. -/
theorem yyToken_nil (hbuf : Buffer y p []) {fuel : Nat} (hfuel : 2 ≤ fuel) :
    ∃ y', yyToken fuel y p (.yyMatch 1 p) = .ok (y', none) := by
  obtain ⟨fuel, rfl⟩ : ∃ f, fuel = f + 2 := ⟨fuel - 2, by omega⟩
  have hloop : 0 + 2 ≤ y.chBuf.length + 1 := by
    rw [hbuf.length]
    omega
  rcases yyMatch_spec 0 hbuf rfl (Nat.le_refl _) (by decide) hloop (noted_zero y p []) with
    ⟨m, q, cp, hkm, hm, _⟩ | ⟨m, _, hm, _, _, hrun⟩
  · exact absurd (Nat.lt_of_lt_of_le hkm hm) (Nat.lt_irrefl 0)
  · obtain rfl : m = 0 := Nat.le_zero.1 hm
    obtain ⟨b, hget, hend⟩ := yyFindAction_end (m := 0) hbuf (Nat.le_refl _)
    refine ⟨(y.noted 3 (p + 0 + 1)).stopped p p b, ?_⟩
    have hstart : yyMatch (y.chBuf.length + 1) y 1 p =
        .ok (y.noted 3 (p + 0 + 1), yyJam, p + 0 + 2) := hrun
    rw [yyToken, hstart, ok_bind, yyToken, hend, ok_bind,
      if_neg (show yyEndOfBuffer ≠ 0 by decide), if_pos rfl]
    show (yyEndOfBufferAction ((y.noted 3 (p + 0 + 1)).taken p (0 + 1) b) >>= _) = _
    rw [yyEndOfBufferAction_eq hget, hbuf.nChars, if_neg (by simp), if_pos (by omega), ok_bind]

end Token

end Secondary
