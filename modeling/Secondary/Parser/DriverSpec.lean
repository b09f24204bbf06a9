import Secondary.Parser.Driver
import Secondary.Parser.LexerSpec
import Secondary.Parser.TablesSpec

/-!
# DriverSpec — the driver runs the tables

The driver of `parser.c` does what the shift-reduce parser over its tables does, with two additions:
at the first syntax error it stops without a tree, and when the stack is full it starts again behind
the token that did not fit.  It never faults.
-/

namespace Secondary

open Lib Lib.ShiftReduce

/-! ## Values -/

/-- The values of the rules' actions. -/
abbrev RuleValues : Type :=
  YYRule → List YYMINORTYPE → Option YYMINORTYPE

def ruleValue (now : Int64) : RuleValues :=
  fun r xs => if r = 0 then xs.head? else (yyRuleMinor now r.val xs).toOption

/-- The tokens with their minors. -/
def tokenActions (sem : RuleValues) : Actions Terminal YYRule Lexeme YYMINORTYPE where
  kind := Lexeme.major
  val tok := .yy0 tok.minor
  sem := sem

/-- The tokens with their minors, and the actions of the rules. -/
abbrev parserActions (now : Int64) : Actions Terminal YYRule Lexeme YYMINORTYPE :=
  tokenActions (ruleValue now)

/-- `multivals ::= multivals COMMA value` when the vector of the list has no room. -/
def ListFull (r : YYRule) (xs : List YYMINORTYPE) : Prop :=
  r = 22 ∧ ∃ vs x c, xs = [.yy27 vs, x, .yy22 c] ∧ 1000 ≤ vs.length

theorem yyRuleMinor_append (now : Int64) (vs : List SIValue) (x : YYMINORTYPE) (c : SIValue) :
    yyRuleMinor now 22 [.yy27 vs, x, .yy22 c] =
      multivalsAppend vs c >>= fun b => .ok (.yy27 b) :=
  rfl

theorem ListFull.fault {r : YYRule} {xs : List YYMINORTYPE} (h : ListFull r xs) (now : Int64) :
    yyRuleMinor now r.val xs = .error .bounds := by
  obtain ⟨rfl, vs, x, c, rfl, hlong⟩ := h
  have hfull : multivalsAppend vs c = .error .bounds := by
    rw [multivalsAppend_eq, if_neg (Nat.not_lt.2 hlong)]
  change yyRuleMinor now 22 _ = _
  rw [yyRuleMinor_append, hfull, error_bind]

theorem ListFull.ruleValue_eq {r : YYRule} {xs : List YYMINORTYPE} (h : ListFull r xs)
    (now : Int64) : ruleValue now r xs = none := by
  have hr : r ≠ 0 := by
    rw [h.1]
    decide
  rw [ruleValue, if_neg hr, h.fault now]
  rfl

/-- The actions read the members that were written, and a list that is full is the one reason for
which one has no value. -/
theorem exists_ruleValue (now : Int64) :
    ∀ r xs, List.Forall₂ MinorOk (parserGrammar.rhs r) xs → ¬ListFull r xs →
      ∃ v, ruleValue now r xs = some v ∧ MinorOk (.n (parserGrammar.lhs r)) v := by
  rintro ⟨r, hr⟩ xs h hroom
  interval_cases r
  -- `query`
  · obtain ⟨_, rfl, _⟩ := forall₂_one h
    exact ⟨_, rfl, trivial⟩
  -- `op`
  · exact ⟨_, rfl, _, rfl⟩
  · exact ⟨_, rfl, _, rfl⟩
  · exact ⟨_, rfl, _, rfl⟩
  · exact ⟨_, rfl, _, rfl⟩
  · exact ⟨_, rfl, _, rfl⟩
  · exact ⟨_, rfl, _, rfl⟩
  -- `cond`
  · obtain ⟨_, _, _, rfl, ⟨_, rfl⟩, ⟨_, rfl⟩, ⟨_, rfl⟩⟩ := forall₂_three h
    exact ⟨_, rfl, _, rfl⟩
  · obtain ⟨_, _, _, rfl, ⟨_, rfl⟩, _, ⟨_, rfl, _, rfl⟩⟩ := forall₂_three h
    exact ⟨_, rfl, _, rfl⟩
  · obtain ⟨_, _, _, rfl, ⟨_, rfl⟩, _, _⟩ := forall₂_three h
    exact ⟨_, rfl, _, rfl⟩
  · obtain ⟨_, _, _, rfl, ⟨_, rfl⟩, _, ⟨_, rfl⟩⟩ := forall₂_three h
    exact ⟨_, rfl, _, rfl⟩
  · obtain ⟨_, _, _, rfl, _, ⟨_, rfl⟩, _⟩ := forall₂_three h
    exact ⟨_, rfl, _, rfl⟩
  · obtain ⟨_, _, _, rfl, ⟨_, rfl⟩, _, ⟨_, rfl⟩⟩ := forall₂_three h
    exact ⟨_, rfl, _, rfl⟩
  · obtain ⟨_, _, _, rfl, ⟨_, rfl⟩, _, ⟨_, rfl⟩⟩ := forall₂_three h
    exact ⟨_, rfl, _, rfl⟩
  -- `value`
  · obtain ⟨_, rfl, _, rfl, _, rfl⟩ := forall₂_one h
    exact ⟨_, rfl, _, rfl⟩
  · obtain ⟨_, rfl, _, rfl, _, rfl⟩ := forall₂_one h
    exact ⟨_, rfl, _, rfl⟩
  · obtain ⟨_, rfl, _, rfl, _, rfl⟩ := forall₂_one h
    exact ⟨_, rfl, _, rfl⟩
  · exact ⟨_, rfl, _, rfl⟩
  · exact ⟨_, rfl, _, rfl⟩
  · obtain ⟨_, rfl, _, rfl⟩ := forall₂_one h
    exact ⟨_, rfl, _, rfl⟩
  -- `vallist` and `multivals`
  · obtain ⟨_, _, _, rfl, _, ⟨_, rfl⟩, _⟩ := forall₂_three h
    exact ⟨_, rfl, _, rfl⟩
  · obtain ⟨_, _, _, rfl, ⟨_, rfl⟩, _, ⟨_, rfl⟩⟩ := forall₂_three h
    exact ⟨_, rfl, _, rfl⟩
  · obtain ⟨_, _, _, rfl, ⟨vs, rfl⟩, _, ⟨c, rfl⟩⟩ := forall₂_three h
    have hlt : vs.length < 1000 := by
      by_contra hlong
      exact hroom ⟨rfl, vs, _, c, rfl, Nat.not_lt.1 hlong⟩
    have happend : multivalsAppend vs c = .ok (vs ++ [c]) := by
      rw [multivalsAppend_eq, if_pos hlt]
    refine ⟨.yy27 (vs ++ [c]), ?_, _, rfl⟩
    change (yyRuleMinor now 22 _).toOption = _
    rw [yyRuleMinor_append, happend]
    rfl
  -- `prop`
  · obtain ⟨_, rfl, _, rfl, _, rfl⟩ := forall₂_one h
    exact ⟨_, rfl, _, rfl⟩
  · obtain ⟨_, rfl, _, rfl, _, rfl⟩ := forall₂_one h
    exact ⟨_, rfl, _, rfl⟩
  -- `timestamp`
  · exact ⟨_, rfl, _, rfl⟩
  · exact ⟨_, rfl, _, rfl⟩
  · obtain ⟨_, _, _, _, rfl, _, rfl, _, rfl⟩ := forall₂_four h
    exact ⟨_, rfl, _, rfl⟩
  · obtain ⟨_, _, _, _, rfl, _, rfl, _, rfl⟩ := forall₂_four h
    exact ⟨_, rfl, _, rfl⟩
  · obtain ⟨_, _, _, _, _, _, rfl, ⟨_, rfl⟩, ⟨_, rfl⟩⟩ := forall₂_six h
    exact ⟨_, rfl, _, rfl⟩
  · obtain ⟨_, _, _, _, _, _, rfl, ⟨_, rfl⟩, ⟨_, rfl⟩⟩ := forall₂_six h
    exact ⟨_, rfl, _, rfl⟩
  -- `duration`
  · obtain ⟨_, _, _, _, rfl, _, rfl, _, rfl⟩ := forall₂_four h
    exact ⟨_, rfl, _, rfl⟩
  · obtain ⟨_, _, _, _, rfl, _, rfl, _, rfl⟩ := forall₂_four h
    exact ⟨_, rfl, _, rfl⟩
  · obtain ⟨_, _, _, _, rfl, _, rfl, _, rfl⟩ := forall₂_four h
    exact ⟨_, rfl, _, rfl⟩
  · obtain ⟨_, _, _, _, rfl, _, rfl, _, rfl⟩ := forall₂_four h
    exact ⟨_, rfl, _, rfl⟩

theorem parserActions_typed (now : Int64) :
    TypedActions parserGrammar (parserActions now) MinorOk := by
  intro r xs v h hv
  have hroom : ¬ListFull r xs := by
    intro hfull
    cases (hfull.ruleValue_eq now).symm.trans hv
  obtain ⟨w, hw, hminor⟩ := exists_ruleValue now r xs h hroom
  obtain rfl := Option.some.inj (hv.symm.trans hw)
  exact hminor

/-- A stack that the driver can have after reading the tokens. -/
abbrev StackOk (now : Int64) (yystack : List YYStackEntry) (toks : List Lexeme) : Prop :=
  parserTables.Valid (parserActions now) yystack toks

/-- The runs of the parser over the tables. -/
abbrev Runs (now : Int64) :
    List YYStackEntry × List Lexeme → List YYStackEntry × List Lexeme → Prop :=
  parserTables.Steps (parserActions now)

/-! ## Reductions -/

section Reduce

variable {now : Int64} {es τ : List YYStackEntry} {r : YYRule} {v : YYMINORTYPE} {q : YYState}
  {ctx : ParseCtx}

theorem find_of_goto {p : YYState} {B : Nonterminal} (h : gotoOf p B = some q) :
    yyFindReduceAction p B.code = .ok q.val := by
  rw [gotoOf] at h
  cases hact : yyFindReduceAction p B.code with
  | error e =>
      rw [hact] at h
      cases h
  | ok yyact =>
      rw [hact] at h
      by_cases hlt : yyact < YYNSTATE
      · simp only [hlt, ↓reduceDIte, Option.some.injEq] at h
        rw [← h]
      · simp [hlt] at h

/-- `yy_reduce` makes the reduction. -/
theorem yyReduce_push (hr : r ≠ 0) (hsymbols : symbols es = parserGrammar.rhs r)
    (hsem : ruleValue now r (values es) = some v)
    (hgoto : gotoOf (stateno τ) (parserGrammar.lhs r) = some q)
    (hroom : (es ++ τ).length < YYSTACKDEPTH) :
    yyReduce now (es ++ τ) ctx r =
      .ok (some ({ state := q, symbol := .n (parserGrammar.lhs r), value := v } :: τ), ctx) := by
  have hlength : es.length = (parserGrammar.rhs r).length := by
    rw [← hsymbols, symbols, List.length_map, List.length_reverse]
  have hpos : 0 < es.length := by
    rw [hlength]
    exact List.length_pos_iff.2 (parserGrammar_ranked.rhs r)
  have hminor : yyRuleMinor now r.val (es.reverse.map Entry.value) = .ok v := by
    simp only [ruleValue, if_neg hr, values] at hsem
    cases hmin : yyRuleMinor now r.val (es.reverse.map Entry.value) with
    | error e =>
        rw [hmin] at hsem
        cases hsem
    | ok w =>
        rw [hmin] at hsem
        rw [Option.some.inj hsem]
  have hshift : ¬YYSTACKDEPTH ≤ τ.length + 1 := by
    rw [List.length_append] at hroom
    omega
  have hnot : ¬(es ++ τ).length < es.length := by simp
  have hbelow : (es ++ τ).drop es.length = τ := List.drop_left
  have habove : (es ++ τ).take es.length = es := List.take_left
  simp only [yyReduce, ruleInfo_eq, ← hlength, hnot, ↓reduceIte, hbelow, habove,
    find_of_goto hgoto, ok_bind, hr, hminor, q.isLt, ↓reduceDIte, yyShift, hshift]

/-- A list that is full faults. -/
theorem yyReduce_full (hfull : ListFull r (values es)) (hsymbols : symbols es = parserGrammar.rhs r)
    (hgoto : gotoOf (stateno τ) (parserGrammar.lhs r) = some q) :
    yyReduce now (es ++ τ) ctx r = .error .bounds := by
  have hlength : es.length = (parserGrammar.rhs r).length := by
    rw [← hsymbols, symbols, List.length_map, List.length_reverse]
  have hr : r ≠ 0 := by
    rw [hfull.1]
    decide
  have hminor : yyRuleMinor now r.val (es.reverse.map Entry.value) = .error .bounds :=
    hfull.fault now
  have hnot : ¬(es ++ τ).length < es.length := by simp
  have hbelow : (es ++ τ).drop es.length = τ := List.drop_left
  have habove : (es ++ τ).take es.length = es := List.take_left
  simp only [yyReduce, ruleInfo_eq, ← hlength, hnot, ↓reduceIte, hbelow, habove,
    find_of_goto hgoto, ok_bind, hr, hminor, error_bind]

/-- Reducing by the first rule sets the root and accepts. -/
theorem yyReduce_accept {e : YYStackEntry} {n : ParseNode} (he : e.value = .yy8 n) :
    yyReduce now [e] ctx 0 = .ok (none, { ctx with root := some n }) := by
  have hinfo : ruleInfo 0 = (34, 1) := rfl
  have hfind : yyFindReduceAction (stateno []) 34 = .ok YY_ACCEPT_ACTION := rfl
  simp [yyReduce, hinfo, hfind, he, setRoot]

end Reduce

/-! ## The loop of `Parse` -/

theorem actionOf_eq_shift {yyact : Nat} {q : YYState} (h : actionOf yyact = .shift q) :
    yyact = q.val := by
  rw [actionOf] at h
  split at h
  · rw [← TableAction.shift.inj h]
  · repeat' split at h
    all_goals cases h

theorem actionOf_eq_reduce {yyact : Nat} {r : YYRule} (h : actionOf yyact = .reduce r) :
    ¬yyact < YYNSTATE ∧ r ≠ 0 ∧ yyact - YYNSTATE = r.val := by
  rw [actionOf] at h
  split at h
  · cases h
  · next hstate =>
      split at h
      · cases h
      · next hfirst =>
          split at h
          · next hrule =>
              have hr := congrArg Fin.val (TableAction.reduce.inj h)
              refine ⟨hstate, fun h0 => ?_, hr⟩
              rw [h0] at hr
              exact hfirst (Nat.le_antisymm (Nat.le_of_sub_eq_zero hr) (Nat.le_of_not_lt hstate))
          · cases h

theorem actionOf_eq_accept {yyact : Nat} (h : actionOf yyact = .accept) : yyact = YYNSTATE := by
  rw [actionOf] at h
  split at h
  · cases h
  · split at h
    · assumption
    · split at h <;> cases h

theorem actionOf_eq_error {yyact : Nat} (h : actionOf yyact = .error)
    (hle : yyact ≤ YY_ERROR_ACTION) : yyact = YY_ERROR_ACTION := by
  rw [actionOf] at h
  split at h
  · cases h
  · split at h
    · cases h
    · split at h
      · cases h
      · next hrule =>
          rw [YY_ERROR_ACTION] at hle ⊢
          omega

section Loop

variable {now : Int64} {tok : Lexeme} {fuel : Nat} {σ : List YYStackEntry} {yyerrcnt : Int}
  {ctx : ParseCtx}

/-- The end of the input is not shifted. -/
theorem major_ne_eoi {p q : YYState} {a : Terminal} (h : parserTables.action p a = .shift q) :
    a ≠ .EOI := by
  have hok := actionOk_all p a
  have hlt : yyFindShiftAction p a.code < YYNSTATE := by
    rw [actionOf_eq_shift h]
    exact q.isLt
  simp only [actionOk, Bool.and_eq_true, Bool.or_eq_true, decide_eq_true_eq] at hok
  exact hok.1.2.resolve_left (Nat.not_le_of_lt hlt)

/-- Nothing but the end of the input is accepted. -/
theorem major_eq_eoi {p : YYState} {a : Terminal} (h : parserTables.action p a = .accept) :
    a = .EOI := by
  have hok := actionOk_all p a
  simp only [actionOk, Bool.and_eq_true, Bool.or_eq_true, decide_eq_true_eq] at hok
  exact hok.2.resolve_left fun hne => hne (actionOf_eq_accept h)

theorem parseLoop_shift {q : YYState}
    (h : parserTables.action (stateno σ) tok.major = .shift q) :
    parseLoop now tok (fuel + 1) σ yyerrcnt ctx =
      .ok ({ yystack := yyShift σ q (.t tok.major) (.yy0 tok.minor),
             yyerrcnt := yyerrcnt - 1 }, ctx) := by
  have hact := actionOf_eq_shift h
  simp only [parseLoop, hact, q.isLt, ↓reduceDIte, if_neg (major_ne_eoi h)]

theorem parseLoop_reduce {r : YYRule}
    (h : parserTables.action (stateno σ) tok.major = .reduce r) :
    parseLoop now tok (fuel + 1) σ yyerrcnt ctx =
      (yyReduce now σ ctx r >>= fun res =>
        match res.1 with
        | some σ => parseLoop now tok fuel σ yyerrcnt res.2
        | none => .ok ({ yystack := none, yyerrcnt := yyerrcnt }, res.2)) := by
  obtain ⟨hstate, _, hact⟩ := actionOf_eq_reduce h
  have hrule : yyFindShiftAction (stateno σ) tok.major.code - YYNSTATE < YYNRULE := by
    rw [hact]
    exact r.isLt
  obtain rfl : ⟨_, hrule⟩ = r := Fin.ext hact
  exact (dif_neg hstate).trans (dif_pos hrule)

theorem parseLoop_accept {e : YYStackEntry} {n : ParseNode}
    (h : parserTables.action (stateno [e]) tok.major = .accept) (he : e.value = .yy8 n) :
    parseLoop now tok (fuel + 1) [e] yyerrcnt ctx =
      .ok ({ yystack := none, yyerrcnt := yyerrcnt }, { ctx with root := some n }) := by
  have hact := actionOf_eq_accept h
  have hfirst : 0 < YYNRULE := by decide
  simp only [parseLoop, hact, Nat.lt_irrefl, ↓reduceDIte, Nat.sub_self, hfirst]
  change (yyReduce now [e] ctx 0 >>= _) = _
  rw [yyReduce_accept he]
  rfl

theorem parseLoop_error (h : parserTables.action (stateno σ) tok.major = .error) :
    parseLoop now tok (fuel + 1) σ yyerrcnt ctx =
      .ok ({ yystack := if tok.major = .EOI then none else some σ, yyerrcnt := 3 },
        if yyerrcnt ≤ 0 then yySyntaxError ctx tok.yytext else ctx) := by
  have hok := actionOk_all (stateno σ) tok.major
  simp only [actionOk, Bool.and_eq_true, decide_eq_true_eq] at hok
  have hact := actionOf_eq_error h hok.1.1
  have hstate : ¬YY_ERROR_ACTION < YYNSTATE := by decide
  have hrule : ¬YY_ERROR_ACTION - YYNSTATE < YYNRULE := by decide
  simp only [parseLoop, hact, hstate, hrule, ↓reduceDIte, ↓reduceIte]

/-- What `Parse` returns when its reductions end at `τ`. -/
inductive Settled (now : Int64) (tok : Lexeme) (yyerrcnt : Int) (ctx : ParseCtx)
    (τ : List YYStackEntry) : Exec (YYParser × ParseCtx) → Prop where
  | shift {q : YYState} :
      parserTables.action (stateno τ) tok.major = .shift q →
      Settled now tok yyerrcnt ctx τ
        (.ok ({ yystack := yyShift τ q (.t tok.major) (.yy0 tok.minor),
                yyerrcnt := yyerrcnt - 1 }, ctx))
  | accept {e : YYStackEntry} {n : ParseNode} :
      parserTables.action (stateno τ) tok.major = .accept → τ = [e] → e.value = .yy8 n →
      Settled now tok yyerrcnt ctx τ
        (.ok ({ yystack := none, yyerrcnt := yyerrcnt }, { ctx with root := some n }))
  | error :
      parserTables.action (stateno τ) tok.major = .error →
      Settled now tok yyerrcnt ctx τ
        (.ok ({ yystack := if tok.major = .EOI then none else some τ, yyerrcnt := 3 },
          if yyerrcnt ≤ 0 then yySyntaxError ctx tok.yytext else ctx))
  | full {es ρ : List YYStackEntry} {r : YYRule} :
      parserTables.action (stateno τ) tok.major = .reduce r → τ = es ++ ρ →
      es.length = (parserGrammar.rhs r).length → ListFull r (values es) →
      Settled now tok yyerrcnt ctx τ (.error .bounds)

theorem minorOk_of_lexemeOk {sem : RuleValues} {ks : List Lexeme} (hks : ∀ k ∈ ks, LexemeOk k) :
    ∀ k ∈ ks, MinorOk (.t ((tokenActions sem).kind k)) ((tokenActions sem).val k) :=
  fun k hk => ⟨k.minor, rfl, hks k hk⟩

/-- With enough fuel the loop of `Parse` reduces as the tables say, and then shifts, accepts, reports
an error, or faults where a list is full. -/
theorem parseLoop_spec (yyerrcnt : Int) (ctx : ParseCtx) {ks ts : List Lexeme}
    (hlook : parserTables.look (parserActions now) ts = tok.major) (hks : ∀ k ∈ ks, LexemeOk k)
    (hσ : StackOk now σ ks) (hroom : σ.length < YYSTACKDEPTH)
    (hfuel : potential 3 symbolRank σ < fuel) :
    ∃ τ, Runs now (σ, ts) (τ, ts) ∧ StackOk now τ ks ∧ τ.length < YYSTACKDEPTH ∧
      Settled now tok yyerrcnt ctx τ (parseLoop now tok fuel σ yyerrcnt ctx) := by
  induction fuel generalizing σ with
  | zero => exact absurd hfuel (Nat.not_lt_zero _)
  | succ fuel ih =>
      cases hact : parserTables.action (stateno σ) tok.major with
      | shift q =>
          refine ⟨σ, .refl, hσ, hroom, ?_⟩
          rw [parseLoop_shift hact]
          exact .shift hact
      | accept =>
          obtain ⟨e, rfl, hgoal, _⟩ := hσ.accept parserTables_checked hact
          have htyped := hσ.typed (parserActions_typed now) (minorOk_of_lexemeOk hks)
            (List.mem_singleton_self e)
          rw [hgoal] at htyped
          obtain ⟨n, hn⟩ := htyped
          refine ⟨[e], .refl, hσ, hroom, ?_⟩
          rw [parseLoop_accept hact hn]
          exact .accept hact rfl hn
      | error =>
          refine ⟨σ, .refl, hσ, hroom, ?_⟩
          rw [parseLoop_error hact]
          exact .error hact
      | reduce r =>
          have hr : r ≠ 0 := (actionOf_eq_reduce hact).2.1
          obtain ⟨es, τ, q, rfl, hsymbols, hgoto⟩ := hσ.exists_reduce parserTables_checked hact
          have hrhs : symbols es = parserGrammar.rhs r := hsymbols
          have hlength : es.length = (parserGrammar.rhs r).length := by
            rw [← hrhs, symbols, List.length_map, List.length_reverse]
          rw [parseLoop_reduce hact]
          by_cases hfull : ListFull r (values es)
          · refine ⟨es ++ τ, .refl, hσ, hroom, ?_⟩
            rw [yyReduce_full hfull hrhs hgoto, error_bind]
            exact .full hact rfl hlength hfull
          have hminors : List.Forall₂ MinorOk (parserGrammar.rhs r) (values es) := by
            rw [← hrhs]
            exact hσ.typed_values (parserActions_typed now) (minorOk_of_lexemeOk hks)
          obtain ⟨v, hsem, _⟩ := exists_ruleValue now r (values es) hminors hfull
          have hred : parserTables.Reduce (parserActions now) r (es ++ τ)
              ({ state := q, symbol := .n (parserGrammar.lhs r), value := v } :: τ) :=
            .intro hlength hsem hgoto
          rw [yyReduce_push hr hsymbols hsem hgoto hroom, ok_bind]
          -- The stack with the left side in place of the right side is smaller.
          have hless := Reduce.potential_lt (m := parserTables) parserGrammar_ranked (τ := τ)
            (e := { state := q, symbol := .n (parserGrammar.lhs r), value := v }) hsymbols rfl
          have hpos : 0 < es.length := by
            rw [hlength]
            exact List.length_pos_iff.2 (parserGrammar_ranked.rhs r)
          have hroom' : τ.length + 1 < YYSTACKDEPTH := by
            rw [List.length_append] at hroom
            omega
          obtain ⟨ρ, hruns, hρ, hlen, hsettled⟩ :=
            ih (hσ.reduce parserTables_checked hact hred) hroom' (by omega)
          refine ⟨ρ, .head (.reduce ?_ hred) hruns, hρ, hlen, hsettled⟩
          rw [hlook]
          exact hact

end Loop

/-! ## Runs of the driver -/

section Run

variable {now : Int64} {p : YYParser} {σ : List YYStackEntry} {ks : List Lexeme}

/-- The stack of the driver before a call of `Parse`; without one it starts with an empty stack. -/
def HasStack (p : YYParser) (σ : List YYStackEntry) : Prop :=
  (p.yystack = none ∧ σ = []) ∨ (p.yystack = some σ ∧ p.yyerrcnt ≤ 0)

theorem potential_le (σ : List YYStackEntry) : potential 3 symbolRank σ ≤ 3 * σ.length := by
  cases σ with
  | nil => exact Nat.le_refl 0
  | cons e σ =>
      have hrank := parserGrammar_ranked.lt e.symbol
      rw [potential, List.length_cons]
      omega

theorem parse_spec (tok : Lexeme) (ctx : ParseCtx) (ts : List Lexeme) (hp : HasStack p σ)
    (hlook : parserTables.look (parserActions now) ts = tok.major) (hks : ∀ k ∈ ks, LexemeOk k)
    (hσ : StackOk now σ ks) (hroom : σ.length < YYSTACKDEPTH) :
    ∃ τ yyerrcnt, yyerrcnt ≤ 0 ∧ Runs now (σ, ts) (τ, ts) ∧ StackOk now τ ks ∧
      τ.length < YYSTACKDEPTH ∧ Settled now tok yyerrcnt ctx τ (parse now p tok ctx) := by
  have hfuel : potential 3 symbolRank σ < 3 * σ.length + 1 := Nat.lt_succ_of_le (potential_le σ)
  rcases hp with ⟨hnone, rfl⟩ | ⟨hsome, herr⟩
  · obtain ⟨τ, hruns, hτ, hlen, hsettled⟩ :=
      parseLoop_spec (-1) ctx hlook hks hσ hroom hfuel
    refine ⟨τ, -1, by decide, hruns, hτ, hlen, ?_⟩
    rw [parse, hnone]
    exact hsettled
  · obtain ⟨τ, hruns, hτ, hlen, hsettled⟩ :=
      parseLoop_spec p.yyerrcnt ctx hlook hks hσ hroom hfuel
    refine ⟨τ, p.yyerrcnt, herr, hruns, hτ, hlen, ?_⟩
    rw [parse, hsome]
    exact hsettled

/-- Before the first syntax error and before the end. -/
def freshCtx : ParseCtx where
  root := none
  ok := true
  errorMsg := none

theorem parseTokens_not_ok (toks : List Lexeme) {ctx : ParseCtx} (h : ctx.ok = false) :
    parseTokens now toks p ctx = .ok (p, ctx) := by
  cases toks with
  | nil => rfl
  | cons tok toks => simp [parseTokens, h]

/-- On the way the parser appends to a list that is full: the query has an IN of more than 1000
values where the parser reads it. -/
def ListTooLong (now : Int64) (toks : List Lexeme) : Prop :=
  parserTables.Breaks (parserActions now) ([], toks)

theorem breaks_of_full {τ es ρ : List YYStackEntry} {ts : List Lexeme} {r : YYRule}
    (hact : parserTables.action (stateno τ) (parserTables.look (parserActions now) ts) = .reduce r)
    (hτ : τ = es ++ ρ) (hlength : es.length = (parserGrammar.rhs r).length)
    (hfull : ListFull r (values es)) : parserTables.Breaks (parserActions now) (τ, ts) := by
  subst hτ
  exact .here .refl (.intro hact hlength (hfull.ruleValue_eq now))

/-- The calls of `Parse` end with the verdict of the tables on the tokens that are left, or they fault
where a list is full. -/
theorem parseTokens_spec {eoi : Lexeme} (heoi : eoi.major = .EOI) {toks : List Lexeme}
    (hp : HasStack p σ) (hks : ∀ k ∈ ks, LexemeOk k) (hσ : StackOk now σ ks)
    (hroom : σ.length < YYSTACKDEPTH) (htoks : ∀ tok ∈ toks, LexemeOk tok ∧ tok.major ≠ .EOI) :
    (∃ ctx, (parseTokens now toks p freshCtx >>= fun r => parseEnd now eoi r.1 r.2) = .ok ctx ∧
        parserTables.Verdict (parserActions now) (σ, toks) (ctx.root.map .yy8)) ∨
      ((parseTokens now toks p freshCtx >>= fun r => parseEnd now eoi r.1 r.2) = .error .bounds ∧
        parserTables.Breaks (parserActions now) (σ, toks)) := by
  induction toks generalizing p σ ks with
  | nil =>
      -- The end of the input is the last call: it accepts, or it is an error.
      obtain ⟨τ, yyerrcnt, herr, hruns, hτ, _, hsettled⟩ :=
        parse_spec eoi freshCtx [] hp heoi.symm hks hσ hroom
      have hend : (parseTokens now [] p freshCtx >>= fun r => parseEnd now eoi r.1 r.2) =
          (parse now p eoi freshCtx >>= fun r => .ok r.2) := rfl
      rw [hend]
      generalize parse now p eoi freshCtx = result at hsettled
      cases hsettled with
      | shift hact => exact absurd heoi (major_ne_eoi hact)
      | @accept e n hact hτ he =>
          refine Or.inl ⟨_, rfl, ?_⟩
          subst hτ
          have hverdict := Verdict.accept hruns (by rw [heoi] at hact; exact hact)
          rw [he] at hverdict
          exact hverdict
      | error hact =>
          refine Or.inl ⟨_, rfl, ?_⟩
          rw [if_pos herr]
          exact .error hruns (by rw [heoi] at hact; exact hact)
      | full hact hsplit hlength hfull =>
          refine Or.inr ⟨rfl, .of_steps hruns (breaks_of_full ?_ hsplit hlength hfull)⟩
          rw [heoi] at hact
          exact hact
  | cons tok toks ih =>
      rw [List.forall_mem_cons] at htoks
      obtain ⟨τ, yyerrcnt, herr, hruns, hτ, hlen, hsettled⟩ :=
        parse_spec tok freshCtx (tok :: toks) hp rfl hks hσ hroom
      have hstart : parseTokens now (tok :: toks) p freshCtx =
          (parse now p tok freshCtx >>= fun r => parseTokens now toks r.1 r.2) := rfl
      rw [hstart]
      generalize parse now p tok freshCtx = result at hsettled
      cases hsettled with
      | @shift q hact =>
          rw [ok_bind]
          by_cases hfull : YYSTACKDEPTH ≤ τ.length + 1
          · -- The stack is full: the driver goes on with an empty one.
            have hshift : yyShift τ q (.t tok.major) (.yy0 tok.minor) = none := if_pos hfull
            have hstack : HasStack { yystack := yyShift τ q (.t tok.major) (.yy0 tok.minor),
                                     yyerrcnt := yyerrcnt - 1 } [] :=
              Or.inl ⟨hshift, rfl⟩
            have hread : ∀ k ∈ ([] : List Lexeme), LexemeOk k := by simp
            have hover : parserTables.Full (parserActions now) (τ, tok :: toks) toks :=
              .intro hact (Nat.le_of_lt_succ (by rw [YYSTACKDEPTH] at hfull; exact hfull))
            rcases ih hstack hread valid_nil (by decide) htoks.2 with
              ⟨ctx, hrun, hverdict⟩ | ⟨hrun, hbreaks⟩
            · exact Or.inl ⟨ctx, hrun, .full ⟨_, hruns, hover⟩ hverdict⟩
            · exact Or.inr ⟨hrun, .full ⟨_, hruns, hover⟩ hbreaks⟩
          · have hshift : yyShift τ q (.t tok.major) (.yy0 tok.minor) =
                some ({ state := q, symbol := .t tok.major, value := .yy0 tok.minor } :: τ) :=
              if_neg hfull
            have hstack : HasStack { yystack := yyShift τ q (.t tok.major) (.yy0 tok.minor),
                                     yyerrcnt := yyerrcnt - 1 }
                ({ state := q, symbol := .t tok.major, value := .yy0 tok.minor } :: τ) :=
              Or.inr ⟨hshift, by simp only; omega⟩
            have hread : ∀ k ∈ ks ++ [tok], LexemeOk k :=
              List.forall_mem_append.2 ⟨hks, by simpa using htoks.1.1⟩
            have hstep : parserTables.Step (parserActions now) (τ, tok :: toks)
                ({ state := q, symbol := .t tok.major, value := .yy0 tok.minor } :: τ, toks) :=
              .shift hact (by
                have hlimit : parserTables.limit + 1 = YYSTACKDEPTH := rfl
                omega)
            rcases ih hstack hread (hτ.shift hact) (Nat.lt_of_not_le hfull) htoks.2 with
              ⟨ctx, hrun, hverdict⟩ | ⟨hrun, hbreaks⟩
            · exact Or.inl ⟨ctx, hrun, .of_steps (hruns.tail hstep) hverdict⟩
            · exact Or.inr ⟨hrun, .of_steps (hruns.tail hstep) hbreaks⟩
      | accept hact => exact absurd (major_eq_eoi hact) htoks.1.2
      | error hact =>
          -- The rest of the input is not read.
          rw [ok_bind, if_pos herr, parseTokens_not_ok toks rfl]
          exact Or.inl ⟨_, rfl, .error hruns hact⟩
      | full hact hsplit hlength hfull =>
          exact Or.inr ⟨rfl, .of_steps hruns (breaks_of_full hact hsplit hlength hfull)⟩

/-- `ParseQuery` returns the verdict of the tables on the tokens of the query, or it faults because
the list of an IN is too long. -/
theorem parseQuery_spec (now : Int64) (strtod : List UInt8 → Strtod) (tok : Token)
    (c : List UInt8) :
    (∃ root msg, parseQuery now strtod tok c = .ok (root, msg) ∧
        parserTables.Verdict (parserActions now) ([], yylex strtod tok c) (root.map .yy8)) ∨
      (parseQuery now strtod tok c = .error .bounds ∧ ListTooLong now (yylex strtod tok c)) := by
  have hstack : HasStack { yystack := none, yyerrcnt := 0 } [] := Or.inl ⟨rfl, rfl⟩
  have hread : ∀ k ∈ ([] : List Lexeme), LexemeOk k := by simp
  have heoi : (endOfInput tok (yylex strtod tok c)).major = .EOI := rfl
  have hstart : parseQuery now strtod tok c =
      ((parseTokens now (yylex strtod tok c) { yystack := none, yyerrcnt := 0 } freshCtx >>=
        fun r => parseEnd now (endOfInput tok (yylex strtod tok c)) r.1 r.2) >>=
          fun ctx => .ok (ctx.root, ctx.errorMsg)) := by
    rw [bind_assoc]
    rfl
  rcases parseTokens_spec heoi hstack hread valid_nil (by decide) fun l hl => yylex_ok hl with
    ⟨ctx, hrun, hverdict⟩ | ⟨hrun, hbreaks⟩
  · rw [hstart, hrun]
    exact Or.inl ⟨_, _, rfl, hverdict⟩
  · rw [hstart, hrun]
    exact Or.inr ⟨rfl, hbreaks⟩

theorem parseQuery_verdict {strtod : List UInt8 → Strtod} {tok : Token} {c : List UInt8}
    {root : Option ParseNode} {msg : Option CString}
    (h : parseQuery now strtod tok c = .ok (root, msg)) :
    parserTables.Verdict (parserActions now) ([], yylex strtod tok c) (root.map .yy8) := by
  rcases parseQuery_spec now strtod tok c with ⟨_, _, hrun, hverdict⟩ | ⟨hrun, _⟩
  · obtain ⟨rfl, _⟩ := Prod.mk.inj (Except.ok.inj (hrun.symm.trans h))
    exact hverdict
  · cases hrun.symm.trans h

end Run

end Secondary
