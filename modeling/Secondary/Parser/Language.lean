import Secondary.Parser.Conditions

/-!
# Language — which queries `ParseQuery` accepts

The rules of the scanner and the grammar say which texts are queries (`InLanguage`).  `ParseQuery`
differs from that in three ways.  A character that no rule matches is left out, and the rest of the
text is parsed.  When the stack of the parser is full, everything before is forgotten, and the tokens
behind are parsed as a query of their own.  When the list of an IN gets longer than 1000 values, the
value behind them is stored outside of its vector.
-/

namespace Secondary

open Lib Lib.ShiftReduce

/-! ## Queries -/

/-- The tokens are derivable from `query`. -/
def IsQuery (toks : List Lexeme) : Prop :=
  Derives parserGrammar [.n .query] (toks.map Lexeme.major)

/-- The whole text splits into tokens and white space, and the tokens are derivable from `query`. -/
def InLanguage (c : List UInt8) : Prop :=
  ∃ ts, Scans c ts ∧ Derives parserGrammar [.n .query] ts

theorem inLanguage_iff (strtod : List UInt8 → Strtod) (tok : Token) (c : List UInt8) :
    InLanguage c ↔ NoneLeft c ∧ IsQuery (yylex strtod tok c) := by
  constructor
  · rintro ⟨ts, hscan, hderives⟩
    obtain ⟨hnone, rfl⟩ := (scans_iff strtod tok).1 hscan
    exact ⟨hnone, hderives⟩
  · rintro ⟨hnone, hquery⟩
    exact ⟨_, (scans_iff strtod tok).2 ⟨hnone, rfl⟩, hquery⟩

/-! ## Lists of any length -/

/-- A list with one more value, however many it has. -/
def longerList : RuleValues
  | r, [.yy27 b, _, .yy22 c] => if r = 22 then some (.yy27 (b ++ [c])) else none
  | _, _ => none

/-- The values of the actions if the vector of a list always had room. -/
def roomyValue (now : Int64) : RuleValues :=
  fun r xs => (ruleValue now r xs).or (longerList r xs)

theorem roomyValue_of_ruleValue (now : Int64) (r : YYRule) (xs : List YYMINORTYPE)
    (v : YYMINORTYPE) (h : ruleValue now r xs = some v) : roomyValue now r xs = some v := by
  rw [roomyValue, h, Option.or]

/-- They have values on all members that the grammar gives them. -/
theorem exists_roomyValue (now : Int64) {r : YYRule} {xs : List YYMINORTYPE}
    (h : List.Forall₂ MinorOk (parserGrammar.rhs r) xs) :
    ∃ v, roomyValue now r xs = some v ∧ MinorOk (.n (parserGrammar.lhs r)) v := by
  by_cases hfull : ListFull r xs
  · have hnone := hfull.ruleValue_eq now
    obtain ⟨rfl, vs, x, c, rfl, _⟩ := hfull
    exact ⟨.yy27 (vs ++ [c]), by rw [roomyValue, hnone]; rfl, _, rfl⟩
  · obtain ⟨v, hv, hminor⟩ := exists_ruleValue now r xs h hfull
    exact ⟨v, roomyValue_of_ruleValue now r xs v hv, hminor⟩

theorem roomyValue_typed (now : Int64) :
    TypedActions parserGrammar (tokenActions (roomyValue now)) MinorOk := by
  intro r xs v h hv
  obtain ⟨w, hw, hminor⟩ := exists_roomyValue now h
  obtain rfl := Option.some.inj (hv.symm.trans hw)
  exact hminor

theorem roomyValue_total (now : Int64) :
    TotalActions parserGrammar (tokenActions (roomyValue now)) MinorOk := by
  intro r xs h
  obtain ⟨v, hv, _⟩ := exists_roomyValue now h
  exact ⟨v, hv⟩

theorem roomyValue_joins (now : Int64) : JoinsConditions (roomyValue now) where
  group _ _ _ := rfl
  opAnd _ _ _ := rfl
  opOr _ _ _ := rfl

section Accept

variable {now : Int64} {toks : List Lexeme}

/-- A query is a sequence of operands. -/
theorem IsQuery.condSeq (now : Int64) (h : IsQuery toks) (htoks : ∀ k ∈ toks, LexemeOk k) :
    ∃ n rest, CondSeq (roomyValue now) toks n rest := by
  obtain ⟨vs, hvs⟩ := Derives.evaluates (A := tokenActions (roomyValue now)) (roomyValue_typed now)
    (roomyValue_total now) h rfl (minorOk_of_lexemeOk htoks)
  generalize hform : [Sym.n Nonterminal.query] = Xs at hvs
  cases hvs with
  | nil => cases hform
  | term _ => cases hform
  | @rule r Ys us ks xs ws v hr hsem htail =>
      obtain ⟨hlhs, rfl⟩ := List.cons.inj hform
      cases htail
      have hall : ∀ r ∈ allRules, parserGrammar.lhs r = .query → r = 0 := by decide +kernel
      obtain rfl := hall r (mem_allRules r) (Sym.n.inj hlhs).symm
      rw [List.append_nil] at htoks ⊢
      exact exists_condSeq (roomyValue_typed now) hr htoks

/-- What a condition derives is a query. -/
theorem isQuery_of_cond {vs : List YYMINORTYPE}
    (h : Evaluates parserGrammar (parserActions now) [.n .cond] toks vs) : IsQuery toks := by
  have hquery : Derives parserGrammar [.n .query] (toks.map Lexeme.major ++ []) :=
    .rule (r := 0) h.derives .nil
  rwa [List.append_nil] at hquery

/-- Where the stack does not get full and no list is too long, queries and they alone are
accepted. -/
theorem accepted_iff (hfits : Fits now toks) (hshort : ¬ListTooLong now toks)
    (htoks : ∀ k ∈ toks, LexemeOk k) :
    (∃ v, parserTables.Verdict (parserActions now) ([], toks) (some v)) ↔ IsQuery toks := by
  constructor
  · rintro ⟨v, hverdict⟩
    cases hverdict with
    | accept hsteps hact =>
        obtain ⟨ks, hks, hvalid⟩ := hsteps.valid parserTables_checked valid_nil rfl
        rw [List.append_nil] at hks
        obtain ⟨e, _, _, heval⟩ := hvalid.accept parserTables_checked hact
        have hread : toks = ks := hks
        rw [hread]
        exact isQuery_of_cond heval
    | full hover _ => exact absurd hover (hfits _)
  · intro hquery
    have hcond : ∃ n rest, CondSeq (roomyValue now) toks n rest := hquery.condSeq now htoks
    obtain ⟨n, rest, hseq⟩ := hcond
    -- With room for every list the query is accepted, and the run is the same without.
    have hroomy : ∀ rest, ¬parserTables.Overflows (tokenActions (roomyValue now)) ([], toks) rest := by
      intro rest hover
      rcases Overflows.of_extended (A := parserActions now) (roomyValue_of_ruleValue now) hover with
        hover | hbreaks
      · exact hfits rest hover
      · exact hshort hbreaks
    rcases Verdict.of_extended (A := parserActions now) (roomyValue_of_ruleValue now)
      (verdict_of_condSeq (roomyValue_joins now) hseq hroomy) with hverdict | hbreaks
    · exact ⟨_, hverdict⟩
    · exact absurd hbreaks hshort

end Accept

/-! ## Overflows -/

section Overflow

variable {now : Int64} {toks rest : List Lexeme}

/-- `rest` are the tokens behind the last overflow of the stack. -/
inductive LastOverflow (now : Int64) : List Lexeme → List Lexeme → Prop where
  | last {toks rest : List Lexeme} :
      parserTables.Overflows (parserActions now) ([], toks) rest → Fits now rest →
      LastOverflow now toks rest
  | more {toks us rest : List Lexeme} :
      parserTables.Overflows (parserActions now) ([], toks) us → LastOverflow now us rest →
      LastOverflow now toks rest

/-- What is read up to an overflow makes a stack with one symbol more than there is room for. -/
theorem read_of_overflows
    (h : parserTables.Overflows (parserActions now) ([], toks) rest) :
    ∃ ks k ρ, toks = ks ++ k :: rest ∧ StackOk now ρ (ks ++ [k]) ∧ YYSTACKDEPTH ≤ ρ.length := by
  obtain ⟨d, hsteps, hfull⟩ := h
  obtain ⟨hact, hlimit⟩ := hfull
  rename_i σ k q
  obtain ⟨ks, hks, hvalid⟩ := hsteps.valid parserTables_checked valid_nil rfl
  refine ⟨ks, k, _, hks, hvalid.shift hact, ?_⟩
  rw [List.length_cons]
  exact Nat.succ_le_succ hlimit

/-- The run ends without an overflow, or there is a last one. -/
theorem fits_or_overflows (now : Int64) (toks : List Lexeme) :
    Fits now toks ∨ ∃ rest, LastOverflow now toks rest := by
  obtain ⟨n, hn⟩ : ∃ n, n = toks.length := ⟨_, rfl⟩
  -- Induction on the number of tokens: an overflow leaves fewer.
  induction n using Nat.strong_induction_on generalizing toks with
  | h n ih =>
      by_cases hfits : Fits now toks
      · exact Or.inl hfits
      · obtain ⟨us, hover⟩ : ∃ us, parserTables.Overflows (parserActions now) ([], toks) us := by
          simpa [Fits] using hfits
        obtain ⟨ks, k, _, hread, _⟩ := read_of_overflows hover
        have hshorter : us.length < n := by
          rw [hn, hread, List.length_append, List.length_cons]
          omega
        refine Or.inr ?_
        rcases ih us.length hshorter us rfl with hfits' | ⟨rest, hlast⟩
        · exact ⟨us, .last hover hfits'⟩
        · exact ⟨rest, .more hover hlast⟩

/-- The verdict is that of the tokens behind the last overflow. -/
theorem LastOverflow.verdict_iff (h : LastOverflow now toks rest) {v : Option YYMINORTYPE} :
    parserTables.Verdict (parserActions now) ([], toks) v ↔
      parserTables.Verdict (parserActions now) ([], rest) v := by
  induction h with
  | last hover _ => exact hover.verdict_iff
  | more hover _ ih => exact hover.verdict_iff.trans ih

/-- A list that is too long behind the last overflow is one on the way. -/
theorem LastOverflow.listTooLong (h : LastOverflow now toks rest) (hlong : ListTooLong now rest) :
    ListTooLong now toks := by
  induction h with
  | last hover _ => exact .full hover hlong
  | more hover _ ih => exact .full hover (ih hlong)

theorem LastOverflow.fits (h : LastOverflow now toks rest) : Fits now rest := by
  induction h with
  | last _ hfits => exact hfits
  | more _ _ ih => exact ih

theorem LastOverflow.not_fits (h : LastOverflow now toks rest) : ¬Fits now toks := by
  intro hfits
  cases h with
  | last hover _ => exact hfits _ hover
  | more hover _ => exact hfits _ hover

theorem LastOverflow.unique {us : List Lexeme} (h : LastOverflow now toks rest)
    (h' : LastOverflow now toks us) : rest = us := by
  induction h with
  | last hover hfits =>
      cases h' with
      | last hover' _ => exact hover.unique hover'
      | more hover' hlast =>
          obtain rfl := hover.unique hover'
          exact absurd hfits hlast.not_fits
  | more hover hlast ih =>
      cases h' with
      | last hover' hfits =>
          obtain rfl := hover.unique hover'
          exact absurd hfits hlast.not_fits
      | more hover' hlast' =>
          obtain rfl := hover.unique hover'
          exact ih hlast'

theorem LastOverflow.mem (h : LastOverflow now toks rest) {k : Lexeme} (hk : k ∈ rest) :
    k ∈ toks := by
  have hstep : ∀ {ts us : List Lexeme},
      parserTables.Overflows (parserActions now) ([], ts) us → k ∈ us → k ∈ ts := by
    intro ts us hover hmem
    obtain ⟨ks, l, _, rfl, _, _⟩ := read_of_overflows hover
    exact List.mem_append_right _ (List.mem_cons_of_mem _ hmem)
  induction h with
  | last hover _ => exact hstep hover hk
  | more hover _ ih => exact hstep hover (ih hk)

end Overflow

/-! ## Lists and commas -/

def commas (ts : List Lexeme) : Nat :=
  (ts.map Lexeme.major).count .COMMA

theorem commas_append (ts us : List Lexeme) : commas (ts ++ us) = commas ts + commas us := by
  rw [commas, List.map_append, List.count_append]
  rfl

/-- A token is one of its terminal, and a list has a comma between its values. -/
structure Separated (X : Symbol) (ts : List Lexeme) (v : YYMINORTYPE) : Prop where
  minor : MinorOk X v
  token : ∀ a, X = .t a → ts.map Lexeme.major = [a]
  list : ∀ vs, X = .n .vallist ∨ X = .n .multivals → v = .yy27 vs → vs.length ≤ commas ts + 1

theorem separated_token {k : Lexeme} (hk : LexemeOk k) :
    Separated (.t k.major) [k] (.yy0 k.minor) where
  minor := ⟨k.minor, rfl, hk⟩
  token a ha := by
    cases ha
    rfl
  list vs hX hvs := by cases hvs

/-- The two sides of the comma of a list. -/
theorem Separated.of_comma {B : Nonterminal} {us : List Lexeme} {xs : List YYMINORTYPE}
    (h : Symbolwise Separated [.n B, .t .COMMA, .n .value] us xs) :
    ∃ ws x y c, xs = [x, y, .yy22 c] ∧ Separated (.n B) ws x ∧ commas ws + 1 ≤ commas us := by
  obtain ⟨ws, ts, x, ys, rfl, rfl, hx, h⟩ := symbolwise_cons h
  obtain ⟨ks, ts, y, zs, rfl, rfl, hy, h⟩ := symbolwise_cons h
  obtain ⟨z, rfl, hz⟩ := symbolwise_one h
  obtain ⟨c, rfl⟩ := hz.minor
  refine ⟨ws, x, y, c, rfl, hx, ?_⟩
  have hcomma : commas ks = 1 := by rw [commas, hy.token .COMMA rfl, List.count_singleton_self]
  rw [commas_append, commas_append, hcomma]
  omega

theorem Separated.of_rule {now : Int64} {r : YYRule} {us : List Lexeme} {xs : List YYMINORTYPE}
    {v : YYMINORTYPE} (h : Symbolwise Separated (parserGrammar.rhs r) us xs)
    (hv : ruleValue now r xs = some v) : Separated (.n (parserGrammar.lhs r)) us v := by
  have hminors : List.Forall₂ MinorOk (parserGrammar.rhs r) xs := h.forall₂ fun _ _ _ => minor
  refine ⟨parserActions_typed now r xs v hminors hv, fun a ha => (by cases ha), ?_⟩
  rintro vs hX rfl
  have hall : ∀ r ∈ allRules, parserGrammar.lhs r = .vallist ∨ parserGrammar.lhs r = .multivals →
      r = 20 ∨ r = 21 ∨ r = 22 := by
    decide +kernel
  rcases hall r (mem_allRules r) (by simpa using hX) with rfl | rfl | rfl
  · -- `vallist ::= LP multivals RP`
    obtain ⟨ws, ts, x, ys, rfl, rfl, -, h⟩ := symbolwise_cons h
    obtain ⟨ks, ts, y, zs, rfl, rfl, hy, h⟩ := symbolwise_cons h
    obtain ⟨z, rfl, -⟩ := symbolwise_one h
    obtain ⟨b, rfl⟩ := hy.minor
    obtain rfl : b = vs := YYMINORTYPE.yy27.inj (Option.some.inj hv)
    have hlist := hy.list b (Or.inr rfl) rfl
    rw [commas_append, commas_append]
    omega
  · -- `multivals ::= value COMMA value`
    obtain ⟨ws, x, y, c, rfl, hx, hcommas⟩ := of_comma h
    obtain ⟨b, rfl⟩ := hx.minor
    obtain rfl : [b, c] = vs := YYMINORTYPE.yy27.inj (Option.some.inj hv)
    rw [List.length_cons, List.length_singleton]
    omega
  · -- `multivals ::= multivals COMMA value`
    obtain ⟨ws, x, y, c, rfl, hx, hcommas⟩ := of_comma h
    obtain ⟨b, rfl⟩ := hx.minor
    have hlist := hx.list b (Or.inr rfl) rfl
    have happend : (yyRuleMinor now 22 [.yy27 b, y, .yy22 c]).toOption = some (.yy27 vs) := hv
    rw [yyRuleMinor_append, multivalsAppend_eq] at happend
    split_ifs at happend
    · obtain rfl : b ++ [c] = vs := YYMINORTYPE.yy27.inj (Option.some.inj happend)
      rw [List.length_append, List.length_singleton]
      omega
    · cases happend

/-- A list of 1000 values, a comma and a value have 1000 commas. -/
theorem commas_of_listFull {now : Int64} {r : YYRule} {ts : List Lexeme} {xs : List YYMINORTYPE}
    (h : Evaluates parserGrammar (parserActions now) (parserGrammar.rhs r) ts xs)
    (hts : ∀ k ∈ ts, LexemeOk k) (hfull : ListFull r xs) : 1000 ≤ commas ts := by
  have hseparated := h.symbolwise (P := Separated) (fun _ => separated_token)
    (fun _ _ _ _ => .of_rule) hts
  obtain ⟨rfl, vs, x, c, rfl, hlong⟩ := hfull
  obtain ⟨ws, y, z, d, hvalues, hy, hcommas⟩ := Separated.of_comma hseparated
  have hlist := hy.list vs (Or.inr rfl) (List.cons.inj hvalues).1.symm
  omega

/-- Where the parser appends to a list of 1000 values there are 1000 commas. -/
theorem ListTooLong.commas {now : Int64} {toks : List Lexeme} (h : ListTooLong now toks)
    (htoks : ∀ k ∈ toks, LexemeOk k) : 1000 ≤ commas toks := by
  rw [ListTooLong] at h
  generalize hc : (([], toks) : List YYStackEntry × List Lexeme) = c at h
  induction h generalizing toks with
  | here hsteps hbroken =>
      subst hc
      obtain @⟨es, τ, ts, r, hact, hlength, hnone⟩ := hbroken
      obtain ⟨ks, hks, hvalid⟩ := hsteps.valid parserTables_checked valid_nil rfl
      have hread : toks = ks ++ ts := hks
      subst hread
      rw [List.forall_mem_append] at htoks
      have hrhs : symbols es = parserGrammar.rhs r :=
        hvalid.symbols_top parserTables_checked hact hlength
      have hminors := hvalid.typed_values (parserActions_typed now) (minorOk_of_lexemeOk htoks.1)
      rw [hrhs] at hminors
      have hfull : ListFull r (values es) := by
        by_contra hroom
        obtain ⟨v, hv, _⟩ := exists_ruleValue now r (values es) hminors hroom
        cases hnone.symm.trans hv
      obtain ⟨us, ws, rfl, _, heval⟩ := hvalid.split
      rw [hrhs] at heval
      have hcommas := commas_of_listFull heval
        (fun k hk => htoks.1 k (List.mem_append_right us hk)) hfull
      rw [commas_append, commas_append]
      omega
  | full hover _ ih =>
      subst hc
      obtain ⟨ks, k, _, rfl, _, _⟩ := read_of_overflows hover
      rw [List.forall_mem_append, List.forall_mem_cons] at htoks
      have hcommas := ih htoks.2.2 rfl
      rw [← List.singleton_append, commas_append, commas_append]
      omega

/-! ## Parentheses -/

/-- Open parentheses less closing ones. -/
def terminalBalance : Terminal → Int
  | .LP => 1
  | .RP => -1
  | _ => 0

def symbolBalance : Symbol → Int
  | .t a => terminalBalance a
  | .n _ => 0

def balance (ts : List Terminal) : Int :=
  (ts.map terminalBalance).sum

def formBalance (Xs : List Symbol) : Int :=
  (Xs.map symbolBalance).sum

theorem balance_append (ts us : List Terminal) : balance (ts ++ us) = balance ts + balance us := by
  simp [balance]

/-- Parentheses are balanced in what a nonterminal derives. -/
theorem balance_of_derives {Xs : List Symbol} {ts : List Terminal}
    (h : Derives parserGrammar Xs ts) : balance ts = formBalance Xs := by
  induction h with
  | nil => rfl
  | term _ ih => simpa [balance, formBalance, symbolBalance] using ih
  | @rule r Xs us ts _ _ ihr ih =>
      have hall : ∀ r ∈ allRules, formBalance (parserGrammar.rhs r) = 0 := by decide +kernel
      rw [hall r (mem_allRules r)] at ihr
      rw [balance_append, ihr, ih]
      simp [formBalance, symbolBalance]

theorem IsQuery.balance {toks : List Lexeme} (h : IsQuery toks) :
    balance (toks.map Lexeme.major) = 0 :=
  balance_of_derives h

/-- A bound of the length of a stack that ends in a state, less eight for each open parenthesis. -/
def stackBound : List Int :=
  [0, -1, 1, 1, 6, 4, -3, 2, 5, 0, 0, 2, 2, 6, -2, 1, 0, 3, 0, 6, 6, 3, 1, 7, -3, -4, 3, -3, -4,
   3, -3, -4, 3, -3, -4, 3, 3, 1, 7, 1, 0, 7, 1, 0, 7, 5, 5, 5, 7, 2, 2, 9, 7, 7, 7, 12, 6, 6, 6,
   6, 12, 10, 10, 7, 7, 7, 7, 7, 7, 7, 7, 7, 6, 6, 6, 6, 6, 6]

theorem stackBound_edge {p q : YYState} {X : Symbol} (h : parserTables.edge p X = some q) :
    stackBound.getD p.val 0 + 1 ≤ 8 * symbolBalance X + stackBound.getD q.val 0 := by
  have hall : ∀ e ∈ parserTables.edges alwaysReduces allStates Terminal.all Nonterminal.all,
      stackBound.getD e.1.val 0 + 1 ≤ 8 * symbolBalance e.2.1 + stackBound.getD e.2.2.val 0 := by
    decide +kernel
  exact hall _ (mem_edges alwaysReduces_parserTables mem_allStates Terminal.mem_all
    Nonterminal.mem_all h)

/-- Without open parentheses a stack is short. -/
theorem length_le_of_path {σ : List YYStackEntry} (h : parserTables.Path σ) :
    (σ.length : Int) ≤ 8 * formBalance (symbols σ) + stackBound.getD (stateno σ).val 0 := by
  induction h with
  | nil => decide
  | @cons e σ hedge _ ih =>
      have hstep := stackBound_edge hedge
      have hsum : formBalance (symbols (e :: σ)) = formBalance (symbols σ) + symbolBalance e.symbol := by
        simp [formBalance, symbols]
      have htop : stateno (e :: σ) = e.state := rfl
      rw [hsum, htop, List.length_cons]
      change stackBound.getD (stateno σ).val 0 + 1 ≤ _ at hstep
      omega

theorem stackBound_le (q : YYState) : stackBound.getD q.val 0 ≤ 12 := by
  have hall : ∀ q ∈ allStates, stackBound.getD q.val 0 ≤ 12 := by decide +kernel
  exact hall q (mem_allStates q)

/-- Parentheses are open where the stack is full. -/
theorem LastOverflow.balance_lt {now : Int64} {toks rest : List Lexeme}
    (h : LastOverflow now toks rest) :
    balance (rest.map Lexeme.major) < balance (toks.map Lexeme.major) := by
  have hstep : ∀ {ts us : List Lexeme},
      parserTables.Overflows (parserActions now) ([], ts) us →
      balance (us.map Lexeme.major) < balance (ts.map Lexeme.major) := by
    intro ts us hover
    obtain ⟨ks, k, ρ, rfl, hρ, hlen⟩ := read_of_overflows hover
    have hread := balance_of_derives hρ.evaluates.derives
    have hlength := length_le_of_path hρ.path
    have hbound := stackBound_le (stateno ρ)
    have hkind : (ks ++ [k]).map (parserActions now).kind = (ks ++ [k]).map Lexeme.major := rfl
    rw [hkind] at hread
    have hsplit : balance ((ks ++ k :: us).map Lexeme.major) =
        balance ((ks ++ [k]).map Lexeme.major) + balance (us.map Lexeme.major) := by
      rw [← balance_append, ← List.map_append, List.append_assoc, List.singleton_append]
    rw [YYSTACKDEPTH] at hlen
    rw [hsplit, hread]
    omega
  induction h with
  | last hover _ => exact hstep hover
  | more hover _ ih => exact ih.trans (hstep hover)

/-! ## Acceptance -/

section Main

variable {now : Int64} {strtod : List UInt8 → Strtod} {tok : Token} {c : List UInt8}

/-- `ParseQuery` returns a tree for the queries of the language, and NULL for all other texts. -/
def RecognizesLanguage (now : Int64) (strtod : List UInt8 → Strtod) (tok : Token)
    (c : List UInt8) : Prop :=
  (InLanguage c → ∃ n msg, parseQuery now strtod tok c = .ok (some n, msg)) ∧
    (¬InLanguage c → ∃ msg, parseQuery now strtod tok c = .ok (none, msg))

/-- With fewer than 1000 commas in the query `ParseQuery` does not fault. -/
theorem parseQuery_returns (now : Int64) (h : commas (yylex strtod tok c) < 1000) :
    ∃ root msg, parseQuery now strtod tok c = .ok (root, msg) := by
  rcases parseQuery_spec now strtod tok c with ⟨root, msg, hrun, _⟩ | ⟨_, hlong⟩
  · exact ⟨root, msg, hrun⟩
  · have hcommas := hlong.commas fun k hk => (yylex_ok hk).1
    omega

/-- `ParseQuery` returns a tree exactly where the tables accept. -/
theorem returnsTree_iff :
    (∃ n msg, parseQuery now strtod tok c = .ok (some n, msg)) ↔
      ∃ v, parserTables.Verdict (parserActions now) ([], yylex strtod tok c) (some v) := by
  constructor
  · rintro ⟨n, msg, hn⟩
    exact ⟨_, parseQuery_verdict hn⟩
  · rintro ⟨v, hv⟩
    rcases parseQuery_spec now strtod tok c with ⟨root, msg, hrun, hverdict⟩ | ⟨_, hlong⟩
    · have heq := hverdict.unique hv
      cases root with
      | none => cases heq
      | some n => exact ⟨n, msg, hrun⟩
    · exact absurd hv hlong.not_verdict

theorem recognizesLanguage_iff :
    RecognizesLanguage now strtod tok c ↔
      ¬ListTooLong now (yylex strtod tok c) ∧
        ((∃ v, parserTables.Verdict (parserActions now) ([], yylex strtod tok c) (some v)) ↔
          InLanguage c) := by
  rw [← returnsTree_iff, RecognizesLanguage]
  rcases parseQuery_spec now strtod tok c with ⟨root, msg, hrun, hverdict⟩ | ⟨hrun, hlong⟩
  · constructor
    · rintro ⟨hin, hout⟩
      refine ⟨fun hlong => hlong.not_verdict hverdict, fun ⟨n, msg', hn⟩ => ?_, hin⟩
      by_contra hnot
      obtain ⟨msg'', hnone⟩ := hout hnot
      cases hn.symm.trans hnone
    · rintro ⟨_, hiff⟩
      refine ⟨hiff.2, fun hnot => ?_⟩
      cases root with
      | none => exact ⟨msg, hrun⟩
      | some n => exact absurd (hiff.1 ⟨n, msg, hrun⟩) hnot
  · -- Neither a tree nor NULL is returned.
    refine iff_of_false ?_ fun h => h.1 hlong
    rintro ⟨hin, hout⟩
    by_cases hlang : InLanguage c
    · obtain ⟨n, msg, hn⟩ := hin hlang
      cases hrun.symm.trans hn
    · obtain ⟨msg, hn⟩ := hout hlang
      cases hrun.symm.trans hn

/-- `ParseQuery` keeps to the language on a text exactly when the parser appends to no list of 1000
values, and no character is left out of a query, or, where the stack gets full, what is behind the
last overflow is no query and the text as a whole is none either. -/
theorem parseQuery_recognizes_iff :
    RecognizesLanguage now strtod tok c ↔
      ¬ListTooLong now (yylex strtod tok c) ∧
        (Fits now (yylex strtod tok c) → IsQuery (yylex strtod tok c) → NoneLeft c) ∧
        ∀ rest, LastOverflow now (yylex strtod tok c) rest →
          ¬IsQuery rest ∧ ¬(NoneLeft c ∧ IsQuery (yylex strtod tok c)) := by
  rw [recognizesLanguage_iff, inLanguage_iff strtod tok]
  have htoks : ∀ k ∈ yylex strtod tok c, LexemeOk k := fun k hk => (yylex_ok hk).1
  generalize yylex strtod tok c = toks at htoks ⊢
  refine and_congr_right fun hshort => ?_
  rcases fits_or_overflows now toks with hfits | ⟨rest, hlast⟩
  · -- No overflow: what is accepted are queries.
    rw [accepted_iff hfits hshort htoks]
    constructor
    · exact fun h => ⟨fun _ hquery => (h.1 hquery).1, fun rest hlast => absurd hfits hlast.not_fits⟩
    · exact fun h => ⟨fun hquery => ⟨h.1 hfits hquery, hquery⟩, fun hin => hin.2⟩
  · -- An overflow: what is accepted is a query behind it, and then the whole is none.
    have hnot : IsQuery rest → ¬IsQuery toks := by
      intro hrest hquery
      have hlt := hlast.balance_lt
      rw [hrest.balance, hquery.balance] at hlt
      exact absurd hlt (Int.lt_irrefl 0)
    simp only [hlast.verdict_iff]
    rw [accepted_iff hlast.fits (fun hlong => hshort (hlast.listTooLong hlong))
      fun k hk => htoks k (hlast.mem hk)]
    constructor
    · intro h
      refine ⟨fun hfits => absurd hfits hlast.not_fits, fun us hus => ?_⟩
      obtain rfl := hlast.unique hus
      have hrest : ¬IsQuery rest := fun hrest => hnot hrest (h.1 hrest).2
      exact ⟨hrest, fun hin => hrest (h.2 hin)⟩
    · intro h
      obtain ⟨hrest, hin⟩ := h.2 rest hlast
      exact ⟨fun hquery => absurd hquery hrest, fun hlang => absurd hlang hin⟩

/-- A query behind a character that no rule matches is accepted. -/
theorem parseQuery_accepts_leftOver :
    ¬RecognizesLanguage 0 (fun _ => { val := 0, failed := false, noDigits := true }) (.intval 0)
      (ascii "#$1=1") := by
  intro h
  have hleft : ((pieces lexPatterns 0 (ascii "#$1=1")).any fun p => p.rule.isNone) = true := by
    decide +kernel
  obtain ⟨p, hp, hnone⟩ := List.any_eq_true.1 hleft
  have hnot : ¬InLanguage (ascii "#$1=1") := by
    intro hin
    obtain ⟨ts, hscan, _⟩ := hin
    exact ((scans_iff (fun _ => { val := 0, failed := false, noDigits := true })
      (.intval 0)).1 hscan).1 p hp (Option.isNone_iff_eq_none.1 hnone)
  obtain ⟨msg, hmsg⟩ := h.2 hnot
  have htree : (parseQuery 0 (fun _ => { val := 0, failed := false, noDigits := true })
      (.intval 0) (ascii "#$1=1")).toOption.any (fun r => r.1.isSome) = true := by
    decide +kernel
  rw [hmsg] at htree
  cases htree

end Main

end Secondary
