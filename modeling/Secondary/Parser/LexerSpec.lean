import Secondary.Parser.Lexer

/-!
# LexerSpec — what the scanner makes of a query

`Scans` says what the token rules say of a text: it splits into texts of rules, longest match first,
with nothing left over.  The scanner computes that, where no character is left over.
-/

namespace Secondary

open Lib

/-- The token carries the member of its terminal. -/
def LexemeOk (tok : Lexeme) : Prop :=
  TokenOk tok.major tok.minor

/-- The terminal of a rule; white space has none. -/
def ruleTerminal (i : Nat) : Option Terminal :=
  ((lexRules[i]?).bind LexRule.action).map Prod.fst

/-- The text splits, longest match first, into texts of the token rules and white space with no
character left over, and `ts` are the terminals of the tokens. -/
def Scans (c : List UInt8) (ts : List Terminal) : Prop :=
  ∃ ws, Tokenizes lexPatterns c ws ∧ ts = ws.filterMap fun w => ruleTerminal w.1

/-- No character is left over. -/
def NoneLeft (c : List UInt8) : Prop :=
  ∀ p ∈ pieces lexPatterns 0 c, p.rule ≠ none

/-- The actions set the member of the terminal that they return, and none returns the end. -/
theorem lexRules_ok {r : LexRule} (hr : r ∈ lexRules) {a : Terminal} {act : TokenValue}
    (h : r.action = some (a, act)) :
    a ≠ .EOI ∧ ∀ strtod yytext tok, TokenOk a (tokenOf strtod yytext tok act) := by
  simp only [lexRules, List.mem_cons, List.not_mem_nil, or_false] at hr
  rcases hr with rfl | rfl | rfl | rfl | rfl | rfl | rfl | rfl | rfl | rfl | rfl | rfl | rfl |
    rfl | rfl | rfl | rfl | rfl | rfl | rfl | rfl | rfl | rfl | rfl | rfl | rfl | rfl | rfl |
    rfl | rfl | rfl | rfl
  all_goals cases h
  -- Keywords set nothing; the other rules set a number or a text.
  all_goals first
    | exact ⟨by decide, fun _ _ _ => trivial⟩
    | exact ⟨by decide, fun _ _ _ => ⟨_, rfl⟩⟩

theorem lexemes_ok {strtod : List UInt8 → Strtod} {tok : Token} {ps : List (Piece UInt8)}
    {l : Lexeme} (hl : l ∈ lexemes strtod tok ps) : LexemeOk l ∧ l.major ≠ .EOI := by
  induction ps generalizing tok with
  | nil => cases hl
  | cons p ps ih =>
      rw [lexemes] at hl
      split at hl
      · next a act hrule =>
          obtain ⟨i, _, hi⟩ := Option.bind_eq_some_iff.1 hrule
          obtain ⟨r, hr, hact⟩ := Option.bind_eq_some_iff.1 hi
          obtain ⟨hne, htok⟩ := lexRules_ok (List.mem_of_getElem? hr) hact
          rcases List.mem_cons.1 hl with rfl | hl
          · exact ⟨htok _ _ _, hne⟩
          · exact ih hl
      · exact ih hl

theorem yylex_ok {strtod : List UInt8 → Strtod} {tok : Token} {c : List UInt8} {l : Lexeme}
    (hl : l ∈ yylex strtod tok c) : LexemeOk l ∧ l.major ≠ .EOI :=
  lexemes_ok hl

/-- The terminals do not depend on what the tokens carry. -/
theorem lexemes_major (strtod : List UInt8 → Strtod) (tok : Token) (ps : List (Piece UInt8)) :
    (lexemes strtod tok ps).map Lexeme.major = ps.filterMap fun p => p.rule.bind ruleTerminal := by
  induction ps generalizing tok with
  | nil => rfl
  | cons p ps ih =>
      rw [lexemes, List.filterMap_cons]
      cases hrule : p.rule with
      | none => simpa using ih tok
      | some i =>
          cases hact : (lexRules[i]?).bind LexRule.action with
          | none => simpa [ruleTerminal, hact] using ih tok
          | some aa =>
              obtain ⟨a, act⟩ := aa
              simp [ruleTerminal, hact, ih]

/-- Pieces of rules are a list of rules and texts. -/
theorem exists_of_rules {ps : List (Piece UInt8)} (h : ∀ p ∈ ps, p.rule ≠ none) :
    ∃ ws : List (Nat × List UInt8), ps = ws.map fun w => { rule := some w.1, text := w.2 } := by
  induction ps with
  | nil => exact ⟨[], rfl⟩
  | cons p ps ih =>
      rw [List.forall_mem_cons] at h
      obtain ⟨i, hi⟩ := Option.ne_none_iff_exists'.1 h.1
      obtain ⟨ws, rfl⟩ := ih h.2
      obtain ⟨rule, text⟩ := p
      obtain rfl : rule = some i := hi
      exact ⟨(i, text) :: ws, rfl⟩

/-- The scanner computes what the rules say, where no character is left over. -/
theorem scans_iff (strtod : List UInt8 → Strtod) (tok : Token) {c : List UInt8}
    {ts : List Terminal} :
    Scans c ts ↔ NoneLeft c ∧ (yylex strtod tok c).map Lexeme.major = ts := by
  rw [yylex, lexemes_major]
  constructor
  · rintro ⟨ws, hsplit, rfl⟩
    rw [tokenizes_iff_pieces] at hsplit
    rw [NoneLeft, hsplit]
    refine ⟨fun p hp => ?_, by rw [List.filterMap_map]; rfl⟩
    obtain ⟨w, _, rfl⟩ := List.mem_map.1 hp
    exact Option.some_ne_none w.1
  · rintro ⟨hnone, rfl⟩
    obtain ⟨ws, hws⟩ := exists_of_rules hnone
    refine ⟨ws, tokenizes_iff_pieces.2 hws, ?_⟩
    rw [hws, List.filterMap_map]
    rfl

/-! ## Parentheses -/

/-- An open parenthesis is a token of its own, whatever follows. -/
theorem yylex_paren (strtod : List UInt8 → Strtod) (tok : Token) (c : List UInt8) :
    yylex strtod tok (40 :: c) =
      { major := .LP, minor := tok, yytext := cString [40] } :: yylex strtod tok c := by
  have hpieces : pieces lexPatterns 0 (40 :: c) =
      { rule := some 15, text := [40] } :: pieces lexPatterns 0 c :=
    pieces_single (by decide +kernel) (List.all_eq_true.1 (by decide +kernel)) c
  rw [yylex, hpieces]
  rfl

theorem yylex_parens (strtod : List UInt8 → Strtod) (tok : Token) (n : Nat) (c : List UInt8) :
    yylex strtod tok (List.replicate n 40 ++ c) =
      List.replicate n { major := .LP, minor := tok, yytext := cString [40] } ++
        yylex strtod tok c := by
  induction n with
  | zero => rfl
  | succ n ih =>
      rw [List.replicate_succ, List.replicate_succ, List.cons_append, List.cons_append,
        yylex_paren, ih]

end Secondary
