import Secondary.Parser.Conditions
import Secondary.Parser.Counted
import Secondary.Query.CountedSpec

/-!
# Parser.CountedSpec — which strings the parser loses

As long as its stack does not overflow the parser hands every string that it makes on to the parse
tree.  An overflow pops the stack, and a string in an entry of `value` is then lost: `DropsString`
says that there is one.
-/

namespace Secondary

open Lib Lib.Counting Lib.ShiftReduce

/-! ## Actions -/

/-- The member that the value of a symbol is. -/
def RcOk : Symbol → RcMinor → Prop
  | .n .cond, m => ∃ n, m = .cond n
  | .n .value, m => ∃ v, m = .value v
  | .n .vallist, m => ∃ vs, m = .vals vs
  | .n .multivals, m => ∃ vs, m = .vals vs
  | X, m => ∃ v, m = .other v ∧ MinorOk X v

/-- The symbols whose values can have strings. -/
def hasValues : Symbol → Bool
  | .n .cond => true
  | .n .value => true
  | .n .vallist => true
  | .n .multivals => true
  | _ => false

theorem rcOk_iff_of_no_values {X : Symbol} (h : hasValues X = false) {m : RcMinor} :
    RcOk X m ↔ ∃ v, m = .other v ∧ MinorOk X v := by
  rcases X with a | B
  · exact Iff.rfl
  · cases B <;> first | exact Iff.rfl | cases h

theorem RcOk.minorOk : ∀ {X : Symbol} {m : RcMinor}, RcOk X m → MinorOk X m.erase
  | .t _, _, ⟨_, rfl, h⟩ => h
  | .n .query, _, ⟨_, rfl, h⟩ => h
  | .n .cond, _, ⟨_, rfl⟩ => ⟨_, rfl⟩
  | .n .op, _, ⟨_, rfl, h⟩ => h
  | .n .prop, _, ⟨_, rfl, h⟩ => h
  | .n .value, _, ⟨_, rfl⟩ => ⟨_, rfl⟩
  | .n .vallist, _, ⟨_, rfl⟩ => ⟨_, rfl⟩
  | .n .timestamp, _, ⟨_, rfl, h⟩ => h
  | .n .multivals, _, ⟨_, rfl⟩ => ⟨_, rfl⟩
  | .n .duration, _, ⟨_, rfl, h⟩ => h

theorem RcOk.cells_eq_nil {X : Symbol} {m : RcMinor} (h : RcOk X m)
    (hvalues : hasValues X = false) : m.cells = [] := by
  obtain ⟨v, rfl, _⟩ := (rcOk_iff_of_no_values hvalues).1 h
  rfl

section Rules

variable {reads : List Cell} {now : Int64}

theorem cells_of_no_values {Xs : List Symbol} {ms : List RcMinor} (h : List.Forall₂ RcOk Xs ms)
    (hvalues : Xs.any hasValues = false) : ms.flatMap RcMinor.cells = [] := by
  induction h with
  | nil => rfl
  | @cons X m Xs ms hm _ ih =>
      rw [List.any_cons, Bool.or_eq_false_iff] at hvalues
      rw [List.flatMap_cons, hm.cells_eq_nil hvalues.1, ih hvalues.2]
      rfl

/-- A rule that has no values on either side. -/
theorem otherRule_spec {r : YYRule} (hr : r ≠ 0) {ms : List RcMinor}
    (h : List.Forall₂ RcOk (parserGrammar.rhs r) ms)
    (hlhs : hasValues (.n (parserGrammar.lhs r)) = false)
    (hrhs : (parserGrammar.rhs r).any hasValues = false)
    (hother : yyRuleMinorRc now r.val ms =
      Counting.ofExcept (yyRuleMinor now r.val (ms.map RcMinor.erase)) >>= fun v =>
        pure (.other v)) :
    Spec reads (ms.flatMap RcMinor.cells) (yyRuleMinorRc now r.val ms)
      (Holds (fun m => RcOk (.n (parserGrammar.lhs r)) m ∧
        yyRuleMinor now r.val (ms.map RcMinor.erase) = .ok m.erase) RcMinor.cells) := by
  have hminors : List.Forall₂ MinorOk (parserGrammar.rhs r) (ms.map RcMinor.erase) :=
    List.forall₂_map_right_iff.2 (h.imp fun _ _ => RcOk.minorOk)
  have hroom : ¬ListFull r (ms.map RcMinor.erase) := by
    intro hfull
    rw [hfull.1] at hlhs
    cases hlhs
  obtain ⟨v, hv, hminor⟩ := exists_ruleValue now r _ hminors hroom
  simp only [ruleValue, if_neg hr] at hv
  have hrun : yyRuleMinor now r.val (ms.map RcMinor.erase) = .ok v := by
    cases hresult : yyRuleMinor now r.val (ms.map RcMinor.erase) with
    | error e =>
        rw [hresult] at hv
        cases hv
    | ok w =>
        rw [hresult] at hv
        rw [Option.some.inj hv]
  rw [hother, cells_of_no_values h hrhs]
  exact .bind_ofExcept hrun
    (.pure_holds ⟨(rcOk_iff_of_no_values hlhs).2 ⟨v, rfl, hminor⟩, hrun⟩ (.refl _))

/-- Where no list is full a rule makes the value that it makes without counting, and moves the
strings of its right side. -/
theorem yyRuleMinorRc_spec {r : YYRule} (hr : r ≠ 0) {ms : List RcMinor}
    (h : List.Forall₂ RcOk (parserGrammar.rhs r) ms)
    (hroom : ¬ListFull r (ms.map RcMinor.erase)) :
    Spec reads (ms.flatMap RcMinor.cells) (yyRuleMinorRc now r.val ms)
      (Holds (fun m => RcOk (.n (parserGrammar.lhs r)) m ∧
        yyRuleMinor now r.val (ms.map RcMinor.erase) = .ok m.erase) RcMinor.cells) := by
  obtain ⟨r, hlt⟩ := r
  interval_cases r
  -- `query`
  · exact absurd rfl hr
  -- `op`
  iterate 6
    · exact otherRule_spec hr h rfl rfl rfl
  -- `cond`
  · obtain ⟨_, _, _, rfl, ⟨_, rfl, _, rfl⟩, ⟨_, rfl, _, rfl⟩, ⟨_, rfl⟩⟩ := forall₂_three h
    exact .pure_holds ⟨⟨_, rfl⟩, rfl⟩ (by simp [RcMinor.cells, RcParseNode.cells, RcOperand.cells])
  · obtain ⟨_, _, _, rfl, ⟨_, rfl, _, rfl⟩, ⟨_, rfl, _⟩, ⟨_, rfl, _, rfl, s, rfl⟩⟩ :=
      forall₂_three h
    refine (siStringValC_spec s.bytes).bind_holds fun v hv => .pure_holds ⟨⟨_, rfl⟩, ?_⟩ (.refl _)
    simp only [RcMinor.erase, RcParseNode.erase, RcPredicateNode.erase, RcOperand.erase, hv]
    rfl
  · obtain ⟨_, _, _, rfl, ⟨_, rfl, _, rfl⟩, ⟨_, rfl, _⟩, ⟨_, rfl, _⟩⟩ := forall₂_three h
    exact .pure_holds ⟨⟨_, rfl⟩, rfl⟩ (.refl _)
  · obtain ⟨_, _, _, rfl, ⟨_, rfl, _, rfl⟩, ⟨_, rfl, _⟩, ⟨_, rfl⟩⟩ := forall₂_three h
    exact .pure_holds ⟨⟨_, rfl⟩, rfl⟩ (by simp [RcMinor.cells, RcParseNode.cells, RcOperand.cells])
  · obtain ⟨_, _, _, rfl, ⟨_, rfl, _⟩, ⟨_, rfl⟩, ⟨_, rfl, _⟩⟩ := forall₂_three h
    exact .pure_holds ⟨⟨_, rfl⟩, rfl⟩ (by simp [RcMinor.cells])
  iterate 2
    · obtain ⟨_, _, _, rfl, ⟨_, rfl⟩, ⟨_, rfl, _⟩, ⟨_, rfl⟩⟩ := forall₂_three h
      exact .pure_holds ⟨⟨_, rfl⟩, rfl⟩ (by simp [RcMinor.cells, RcParseNode.cells])
  -- `value`
  · obtain ⟨_, rfl, _, rfl, _, rfl, _, rfl⟩ := forall₂_one h
    exact .pure_holds ⟨⟨_, rfl⟩, rfl⟩ (.refl _)
  · obtain ⟨_, rfl, _, rfl, _, rfl, s, rfl⟩ := forall₂_one h
    refine (siStringValC_spec s.bytes).bind_holds fun v hv => .pure_holds ⟨⟨_, rfl⟩, ?_⟩ (.refl _)
    simp only [RcMinor.erase, hv]
    rfl
  · obtain ⟨_, rfl, _, rfl, _, rfl, _, rfl⟩ := forall₂_one h
    exact .pure_holds ⟨⟨_, rfl⟩, rfl⟩ (.refl _)
  iterate 2
    · obtain ⟨_, rfl, _, rfl, _⟩ := forall₂_one h
      exact .pure_holds ⟨⟨_, rfl⟩, rfl⟩ (.refl _)
  · obtain ⟨_, rfl, _, rfl, _, rfl⟩ := forall₂_one h
    exact .pure_holds ⟨⟨_, rfl⟩, rfl⟩ (.refl _)
  -- `vallist` and `multivals`
  · obtain ⟨_, _, _, rfl, ⟨_, rfl, _⟩, ⟨_, rfl⟩, ⟨_, rfl, _⟩⟩ := forall₂_three h
    exact .pure_holds ⟨⟨_, rfl⟩, rfl⟩ (by simp [RcMinor.cells])
  · obtain ⟨_, _, _, rfl, ⟨_, rfl⟩, ⟨_, rfl, _⟩, ⟨_, rfl⟩⟩ := forall₂_three h
    exact .bind_ofExcept rfl (.bind_ofExcept rfl
      (.pure_holds ⟨⟨_, rfl⟩, rfl⟩ (by simp [RcMinor.cells])))
  · obtain ⟨_, x, _, rfl, ⟨vs, rfl⟩, ⟨_, rfl, _⟩, ⟨c, rfl⟩⟩ := forall₂_three h
    have hlt : (vs.map RcValue.erase).length < 1000 := by
      by_contra hlong
      exact hroom ⟨rfl, _, _, _, rfl, Nat.not_lt.1 hlong⟩
    have happend : multivalsAppend (vs.map RcValue.erase) c.erase =
        .ok (vs.map RcValue.erase ++ [c.erase]) := by
      rw [multivalsAppend_eq, if_pos hlt]
    refine .bind_ofExcept happend (.pure_holds ⟨⟨_, rfl⟩, ?_⟩ (by simp [RcMinor.cells]))
    change yyRuleMinor now 22 [.yy27 (vs.map RcValue.erase), _, .yy22 c.erase] = _
    rw [yyRuleMinor_append, happend, ok_bind, RcMinor.erase, List.map_append]
    rfl
  -- `prop`, `timestamp` and `duration`
  all_goals exact otherRule_spec hr h rfl rfl rfl

end Rules

/-! ## Popping -/

/-- The value fits its symbol, and a tree in it is one that the grammar builds. -/
structure Poppable (e : RcStackEntry) : Prop where
  ok : RcOk e.symbol e.value
  built : ∀ n, e.value = .cond n → n.erase.Built

/-- What is lost when the entry is popped. -/
def lostOf (e : RcStackEntry) : List Cell :=
  if e.symbol = .n .value then e.value.cells else []

def lostCells (σ : List RcStackEntry) : List Cell :=
  σ.flatMap lostOf

/-- Everything was given up but `cells`, which were lost. -/
def Loses (cells : List Cell) : Unit → List Cell → List Cell → Prop :=
  fun _ refs lost => refs = [] ∧ lost = cells

section Pop

variable {reads : List Cell}

theorem loses_of_givenUp {pre : List Cell} {m : StringCounting Unit} (h : Spec reads pre m GivenUp) :
    Spec reads pre m (Loses []) := by
  refine h.mono ?_
  rintro _ refs lost ⟨_, hrefs, hlost⟩
  exact ⟨hrefs.eq_nil, hlost⟩

theorem yyDestructor_spec {e : RcStackEntry} (h : Poppable e) :
    Spec reads e.value.cells (yyDestructor e.symbol e.value) (Loses (lostOf e)) := by
  obtain ⟨state, symbol, value⟩ := e
  obtain ⟨hok, hbuilt⟩ := h
  cases hvalues : hasValues symbol with
  | false =>
      -- There are no strings, and no destructor that frees values.
      have hcells : value.cells = [] := hok.cells_eq_nil hvalues
      have hlost : lostOf { state := state, symbol := symbol, value := value } = [] := by
        simp [lostOf, hcells]
      have hrun : yyDestructor symbol value = loseRefs value.cells := by
        obtain ⟨v, rfl, _⟩ := (rcOk_iff_of_no_values hvalues).1 hok
        rcases symbol with a | B
        · rfl
        · cases B <;> rfl
      rw [hlost, hrun, ← hcells]
      exact .loseRefs
  | true =>
      rcases symbol with a | B
      · cases hvalues
      · cases B
        case cond =>
            obtain ⟨n, rfl⟩ := hok
            exact loses_of_givenUp (parseNodeFree_spec (hbuilt n rfl))
        case value =>
            obtain ⟨v, rfl⟩ := hok
            exact .loseRefs
        case vallist | multivals =>
            obtain ⟨vs, rfl⟩ := hok
            exact loses_of_givenUp (siValueVectorFree_spec vs)
        all_goals cases hvalues

theorem yyPopAll_spec {σ : List RcStackEntry} (h : ∀ e ∈ σ, Poppable e) :
    Spec reads (stackCells σ) (yyPopAll σ) (Loses (lostCells σ)) := by
  induction σ with
  | nil => exact .pure ⟨rfl, rfl⟩
  | cons e σ ih =>
      have hpop : Spec reads e.value.cells _ _ := yyDestructor_spec (h e List.mem_cons_self)
      refine (hpop.holding (stackCells σ) fun c hc => Or.inr hc).bind ?_
      rintro _ _ _ ⟨_, rfl, rfl, rfl⟩
      refine (ih fun e' he' => h e' (List.mem_cons_of_mem _ he')).mono ?_
      rintro _ refs lost ⟨rfl, rfl⟩
      exact ⟨rfl, rfl⟩

end Pop

/-! ## Reductions and shifts -/

theorem statenoRc_eq (σ : List RcStackEntry) : statenoRc σ = stateno (eraseStack σ) := by
  cases σ <;> rfl

theorem symbols_eraseStack (σ : List RcStackEntry) : symbols (eraseStack σ) = symbols σ := by
  rw [symbols, symbols, eraseStack, ← List.map_reverse, List.map_map]
  rfl

theorem length_eraseStack (σ : List RcStackEntry) : (eraseStack σ).length = σ.length :=
  List.length_map _

section Driver

variable {reads : List Cell} {now : Int64} {σ τ es : List RcStackEntry} {ctx : RcParseCtx}

/-- A shift keeps the strings of the stack, or pops them all. -/
theorem yyShiftRc_room {q : YYState} {X : Symbol} {m : RcMinor}
    (hroom : ¬YYSTACKDEPTH ≤ σ.length + 1) :
    yyShiftRc σ q X m = pure (some ({ state := q, symbol := X, value := m } :: σ)) :=
  if_neg hroom

/-- An overflow at a token. -/
theorem yyShiftRc_full {q : YYState} {X : Symbol} {v : YYMINORTYPE}
    (hfull : YYSTACKDEPTH ≤ σ.length + 1) (h : ∀ e ∈ σ, Poppable e) :
    Spec reads (stackCells σ) (yyShiftRc σ q X (.other v)) fun r refs lost =>
      r = none ∧ refs = [] ∧ lost = lostCells σ := by
  rw [yyShiftRc, if_pos hfull]
  have hminor : Spec reads ([] ++ stackCells σ)
      (holding (stackCells σ) (loseRefs (RcMinor.other v).cells : StringCounting Unit)) _ :=
    Spec.loseRefs.holding (stackCells σ) fun c hc => Or.inr hc
  refine hminor.bind ?_
  rintro _ _ _ ⟨_, rfl, rfl, rfl⟩
  refine (yyPopAll_spec h).bind ?_
  rintro _ _ _ ⟨rfl, rfl⟩
  exact .pure ⟨rfl, rfl, by simp⟩

/-- `yy_reduce` makes the reduction, and keeps the strings. -/
theorem yyReduceRc_push {r : YYRule} {q : YYState} (hr : r ≠ 0)
    (hsymbols : symbols es = parserGrammar.rhs r) (hes : ∀ e ∈ es, RcOk e.symbol e.value)
    (hlist : ¬ListFull r (values (eraseStack es)))
    (hgoto : gotoOf (statenoRc τ) (parserGrammar.lhs r) = some q)
    (hroom : (es ++ τ).length < YYSTACKDEPTH) :
    Spec reads (stackCells (es ++ τ)) (yyReduceRc now (es ++ τ) ctx r) fun res refs lost =>
      ∃ v, res = (some ({ state := q, symbol := .n (parserGrammar.lhs r), value := v } :: τ), ctx) ∧
        RcOk (.n (parserGrammar.lhs r)) v ∧
        yyRuleMinor now r.val (values (eraseStack es)) = .ok v.erase ∧
        refs.Perm (v.cells ++ stackCells τ) ∧ lost = [] := by
  have hlength : es.length = (parserGrammar.rhs r).length := by
    rw [← hsymbols, symbols, List.length_map, List.length_reverse]
  have hpos : 0 < es.length := by
    rw [hlength]
    exact List.length_pos_iff.2 (parserGrammar_ranked.rhs r)
  have hshift : ¬YYSTACKDEPTH ≤ τ.length + 1 := by
    rw [List.length_append] at hroom
    omega
  have hnot : ¬(es ++ τ).length < es.length := by simp
  have hbelow : (es ++ τ).drop es.length = τ := List.drop_left
  have habove : (es ++ τ).take es.length = es := List.take_left
  have hminors : List.Forall₂ RcOk (parserGrammar.rhs r) (es.reverse.map Entry.value) := by
    rw [← hsymbols, symbols, List.forall₂_map_left_iff, List.forall₂_map_right_iff,
      List.forall₂_same]
    exact fun e he => hes e (List.mem_reverse.1 he)
  have hvalues : values (eraseStack es) =
      (es.reverse.map Entry.value).map RcMinor.erase := by
    rw [values, eraseStack, ← List.map_reverse, List.map_map, List.map_map]
    rfl
  rw [hvalues] at hlist ⊢
  have hrule : Spec reads _ (yyRuleMinorRc now r.val _) _ := yyRuleMinorRc_spec hr hminors hlist
  have hpre : (stackCells (es ++ τ)).Perm
      ((es.reverse.map Entry.value).flatMap RcMinor.cells ++ stackCells τ) := by
    rw [stackCells, List.flatMap_append, List.flatMap_map]
    exact ((List.reverse_perm es).symm.flatMap_right _).append_right _
  simp only [yyReduceRc, ruleInfo_eq, ← hlength, hnot, ↓reduceIte, hbelow, habove]
  refine .bind_ofExcept (find_of_goto hgoto) ?_
  rw [if_neg hr]
  refine Spec.bind_holding hrule hpre (fun c hc => Or.inr hc) ?_
  rintro v ⟨hv, hrun⟩
  rw [dif_pos q.isLt, yyShiftRc_room hshift]
  exact .pure ⟨v, rfl, hv, hrun, .refl _, rfl⟩

/-- The last reduction of a query hands its strings to the root. -/
theorem yyReduceRc_accept {e : RcStackEntry} {n : RcParseNode} (he : e.value = .cond n) :
    Spec reads (stackCells [e]) (yyReduceRc now [e] ctx 0)
      (Holds (· = (none, { ctx with root := some n })) fun _ => n.cells) := by
  have hinfo : ruleInfo 0 = (34, 1) := rfl
  have hfind : yyFindReduceAction (statenoRc []) 34 = .ok YY_ACCEPT_ACTION := rfl
  have hcells : stackCells [e] = n.cells := by simp [stackCells, he, RcMinor.cells]
  have hroot : setRootRc ctx ([e].reverse.map Entry.value) =
      .ok { ctx with root := some n } := by
    simp [he, setRootRc]
  rw [hcells]
  simp only [yyReduceRc, hinfo, List.length_singleton, Nat.lt_irrefl, if_false, List.take_succ_cons,
    List.take_nil, List.drop_succ_cons, List.drop_nil]
  refine .bind_ofExcept hfind ?_
  rw [if_pos trivial]
  refine .bind_ofExcept hroot ?_
  rw [if_pos rfl]
  exact .pure_holds rfl (.refl _)

theorem symbol_of_cond {X : Symbol} {n : RcParseNode} (h : RcOk X (.cond n)) : X = .n .cond := by
  rcases X with a | B
  · obtain ⟨_, hn, _⟩ := h
    cases hn
  · cases B
    case cond => rfl
    case value | vallist | multivals =>
        obtain ⟨_, hn⟩ := h
        cases hn
    all_goals
      obtain ⟨_, hn, _⟩ := h
      cases hn

theorem poppable_of_stackOk {ks : List Lexeme} (hσ : StackOk now (eraseStack σ) ks)
    (hks : ∀ k ∈ ks, LexemeOk k) (hok : ∀ e ∈ σ, RcOk e.symbol e.value) :
    ∀ e ∈ σ, Poppable e := by
  intro e he
  refine ⟨hok e he, fun n hn => ?_⟩
  have hread : ∀ k ∈ ks, Made (.t ((parserActions now).kind k)) ((parserActions now).val k) :=
    minorOk_of_lexemeOk hks
  have hmem : eraseEntry e ∈ eraseStack σ := List.mem_map_of_mem he
  have hmade := hσ.typed (parserActions_made now) hread hmem
  have hvalue := hok e he
  rw [hn] at hvalue
  simp only [eraseEntry, symbol_of_cond hvalue, hn] at hmade
  obtain ⟨n', hn', hbuilt⟩ := hmade
  rwa [YYMINORTYPE.yy8.inj hn']

/-! ## The loop of `Parse` -/

/-- What `Parse` returns when its reductions end at `ρ`, and the strings that are then on the stack,
in the tree, or lost. -/
inductive SettledRc (tok : Lexeme) (yyerrcnt : Int) (ctx : RcParseCtx) (ρ : List YYStackEntry) :
    RcParser × RcParseCtx → List Cell → List Cell → Prop where
  | shift {τ : List RcStackEntry} {q : YYState} {refs : List Cell} :
      eraseStack τ = ρ → (∀ e ∈ τ, RcOk e.symbol e.value) →
      parserTables.action (stateno ρ) tok.major = .shift q → ¬YYSTACKDEPTH ≤ τ.length + 1 →
      refs.Perm (stackCells τ) →
      SettledRc tok yyerrcnt ctx ρ
        ({ yystack := some ({ state := q, symbol := .t tok.major,
                              value := .other (.yy0 tok.minor) } :: τ),
           yyerrcnt := yyerrcnt - 1 }, ctx) refs []
  | full {τ : List RcStackEntry} {q : YYState} :
      eraseStack τ = ρ → (∀ e ∈ τ, RcOk e.symbol e.value) →
      parserTables.action (stateno ρ) tok.major = .shift q → YYSTACKDEPTH ≤ τ.length + 1 →
      SettledRc tok yyerrcnt ctx ρ ({ yystack := none, yyerrcnt := yyerrcnt - 1 }, ctx) []
        (lostCells τ)
  | accept {n : RcParseNode} {refs : List Cell} :
      parserTables.action (stateno ρ) tok.major = .accept → refs.Perm n.cells →
      SettledRc tok yyerrcnt ctx ρ
        ({ yystack := none, yyerrcnt := yyerrcnt }, { ctx with root := some n }) refs []
  | error {p : RcParser} {refs lost : List Cell} :
      parserTables.action (stateno ρ) tok.major = .error →
      SettledRc tok yyerrcnt ctx ρ
        (p, if yyerrcnt ≤ 0 then yySyntaxErrorRc ctx tok.yytext else ctx) refs lost

theorem erase_ite_syntaxError (yyerrcnt : Int) (yytext : CString) :
    (if yyerrcnt ≤ 0 then yySyntaxErrorRc ctx yytext else ctx).erase =
      if yyerrcnt ≤ 0 then yySyntaxError ctx.erase yytext else ctx.erase := by
  split <;> rfl

section Loop

variable {tok : Lexeme} {fuel : Nat} {yyerrcnt : Int}

theorem parseLoopRc_shift {q : YYState}
    (h : parserTables.action (stateno (eraseStack σ)) tok.major = .shift q) :
    parseLoopRc now tok (fuel + 1) σ yyerrcnt ctx =
      (yyShiftRc σ q (.t tok.major) (.other (.yy0 tok.minor)) >>= fun yystack =>
        pure ({ yystack := yystack, yyerrcnt := yyerrcnt - 1 }, ctx)) := by
  have hact := actionOf_eq_shift h
  simp only [parseLoopRc, statenoRc_eq, hact, q.isLt, ↓reduceDIte, if_neg (major_ne_eoi h)]

theorem parseLoopRc_reduce {r : YYRule}
    (h : parserTables.action (stateno (eraseStack σ)) tok.major = .reduce r) :
    parseLoopRc now tok (fuel + 1) σ yyerrcnt ctx =
      (yyReduceRc now σ ctx r >>= fun res =>
        match res.1 with
        | some σ => parseLoopRc now tok fuel σ yyerrcnt res.2
        | none => pure ({ yystack := none, yyerrcnt := yyerrcnt }, res.2)) := by
  rw [← statenoRc_eq] at h
  obtain ⟨hstate, _, hact⟩ := actionOf_eq_reduce h
  have hrule : yyFindShiftAction (statenoRc σ) tok.major.code - YYNSTATE < YYNRULE := by
    rw [hact]
    exact r.isLt
  obtain rfl : ⟨_, hrule⟩ = r := Fin.ext hact
  exact (dif_neg hstate).trans (dif_pos hrule)

theorem parseLoopRc_accept
    (h : parserTables.action (stateno (eraseStack σ)) tok.major = .accept) :
    parseLoopRc now tok (fuel + 1) σ yyerrcnt ctx =
      (yyReduceRc now σ ctx 0 >>= fun res =>
        match res.1 with
        | some σ => parseLoopRc now tok fuel σ yyerrcnt res.2
        | none => pure ({ yystack := none, yyerrcnt := yyerrcnt }, res.2)) := by
  have hact := actionOf_eq_accept h
  have hfirst : 0 < YYNRULE := by decide
  simp only [parseLoopRc, statenoRc_eq, hact, Nat.lt_irrefl, ↓reduceDIte, Nat.sub_self, hfirst]
  rfl

theorem parseLoopRc_error
    (h : parserTables.action (stateno (eraseStack σ)) tok.major = .error) :
    parseLoopRc now tok (fuel + 1) σ yyerrcnt ctx =
      if tok.major = .EOI then
        (yyPopAll σ >>= fun _ => pure ({ yystack := none, yyerrcnt := 3 },
          if yyerrcnt ≤ 0 then yySyntaxErrorRc ctx tok.yytext else ctx))
      else
        pure ({ yystack := some σ, yyerrcnt := 3 },
          if yyerrcnt ≤ 0 then yySyntaxErrorRc ctx tok.yytext else ctx) := by
  have hok := actionOk_all (stateno (eraseStack σ)) tok.major
  simp only [actionOk, Bool.and_eq_true, decide_eq_true_eq] at hok
  have hact := actionOf_eq_error h hok.1.1
  have hstate : ¬YY_ERROR_ACTION < YYNSTATE := by decide
  have hrule : ¬YY_ERROR_ACTION - YYNSTATE < YYNRULE := by decide
  simp only [parseLoopRc, statenoRc_eq, hact, hstate, hrule, ↓reduceDIte, ↓reduceIte]

/-- A reduction of the loop that is made without counting: on the stack without counters it is the
one of the tables. -/
theorem yyReduceRc_step {r : YYRule} {ks : List Lexeme} (hks : ∀ k ∈ ks, LexemeOk k)
    (hσ : StackOk now (eraseStack σ) ks) (hok : ∀ e ∈ σ, RcOk e.symbol e.value)
    (hroom : σ.length < YYSTACKDEPTH)
    (hact : parserTables.action (stateno (eraseStack σ)) tok.major = .reduce r)
    {res : Option (List YYStackEntry) × ParseCtx}
    (hres : yyReduce now (eraseStack σ) ctx.erase r = .ok res) :
    Spec reads (stackCells σ) (yyReduceRc now σ ctx r) fun res refs lost =>
      ∃ τ, res = (some τ, ctx) ∧
        yyReduce now (eraseStack σ) ctx.erase r = .ok (some (eraseStack τ), ctx.erase) ∧
        parserTables.Reduce (parserActions now) r (eraseStack σ) (eraseStack τ) ∧
        (∀ e ∈ τ, RcOk e.symbol e.value) ∧ τ.length < YYSTACKDEPTH ∧
        potential 3 symbolRank (eraseStack τ) < potential 3 symbolRank (eraseStack σ) ∧
        refs.Perm (stackCells τ) ∧ lost = [] := by
  have hr : r ≠ 0 := (actionOf_eq_reduce hact).2.1
  obtain ⟨es', τ', q, hsplit, hsymbols, hgoto⟩ := hσ.exists_reduce parserTables_checked hact
  obtain ⟨es, τ, rfl, rfl, rfl⟩ := List.map_eq_append_iff.1 hsplit
  change symbols (eraseStack es) = parserGrammar.rhs r at hsymbols
  change gotoOf (stateno (eraseStack τ)) (parserGrammar.lhs r) = some q at hgoto
  have happend : eraseStack (es ++ τ) = eraseStack es ++ eraseStack τ := List.map_append
  have hlist : ¬ListFull r (values (eraseStack es)) := by
    intro hfull
    rw [happend, yyReduce_full hfull hsymbols hgoto] at hres
    cases hres
  have hminors : List.Forall₂ MinorOk (parserGrammar.rhs r) (values (eraseStack es)) := by
    rw [happend] at hσ
    rw [← hsymbols]
    exact hσ.typed_values (parserActions_typed now) (minorOk_of_lexemeOk hks)
  obtain ⟨w, hsem, _⟩ := exists_ruleValue now r _ hminors hlist
  have hlength : (eraseStack es).length = (parserGrammar.rhs r).length := by
    rw [← hsymbols, symbols, List.length_map, List.length_reverse]
  have hpos : 0 < es.length := by
    rw [← length_eraseStack, hlength]
    exact List.length_pos_iff.2 (parserGrammar_ranked.rhs r)
  have hred : parserTables.Reduce (parserActions now) r (eraseStack (es ++ τ))
      ({ state := q, symbol := .n (parserGrammar.lhs r), value := w } :: eraseStack τ) := by
    rw [happend]
    exact .intro hlength hsem hgoto
  have hless := Reduce.potential_lt (m := parserTables) parserGrammar_ranked (τ := eraseStack τ)
    (e := { state := q, symbol := .n (parserGrammar.lhs r), value := w }) hsymbols rfl
  rw [← happend] at hless
  have hrun : yyReduce now (eraseStack es ++ eraseStack τ) ctx.erase r =
      .ok (some ({ state := q, symbol := .n (parserGrammar.lhs r), value := w } :: eraseStack τ),
        ctx.erase) :=
    yyReduce_push hr hsymbols hsem hgoto (by rwa [← happend, length_eraseStack])
  rw [← happend] at hrun
  -- The same on the stack with counters.
  have hes : ∀ e ∈ es, RcOk e.symbol e.value := fun e he => hok e (List.mem_append_left _ he)
  have hgotoRc : gotoOf (statenoRc τ) (parserGrammar.lhs r) = some q := by
    rwa [statenoRc_eq]
  have hsymbolsRc : symbols es = parserGrammar.rhs r := by
    rwa [symbols_eraseStack] at hsymbols
  refine (yyReduceRc_push hr hsymbolsRc hes hlist hgotoRc hroom).mono ?_
  rintro _ refs _ ⟨v, rfl, hv, hminor, hrefs, rfl⟩
  have hvalue : v.erase = w := by
    simp only [ruleValue, if_neg hr, hminor] at hsem
    exact Option.some.inj hsem
  subst hvalue
  refine ⟨_, rfl, hrun, hred, ?_, ?_, hless, hrefs, rfl⟩
  · intro e he
    rcases List.mem_cons.1 he with rfl | he
    · exact hv
    · exact hok e (List.mem_append_right _ he)
  · rw [List.length_append] at hroom
    rw [List.length_cons]
    omega

/-- The stack at which a query is accepted. -/
theorem exists_cond_of_accept {ks : List Lexeme} (hσ : StackOk now (eraseStack σ) ks)
    (hok : ∀ e ∈ σ, RcOk e.symbol e.value)
    (hact : parserTables.action (stateno (eraseStack σ)) tok.major = .accept) :
    ∃ e n, σ = [e] ∧ e.value = .cond n ∧ (eraseEntry e).value = .yy8 n.erase := by
  obtain ⟨e', hstack, hgoal, _⟩ := hσ.accept parserTables_checked hact
  obtain ⟨e, rfl, rfl⟩ := List.map_eq_singleton_iff.1 hstack
  have hvalue := hok e (List.mem_singleton_self e)
  have hsymbol : e.symbol = .n .cond := hgoal
  rw [hsymbol] at hvalue
  obtain ⟨n, hn⟩ := hvalue
  exact ⟨e, n, rfl, hn, by simp [eraseEntry, hn, RcMinor.erase]⟩

/-- Where the loop returns without counting, it returns the same. -/
theorem parseLoopRc_spec (yyerrcnt : Int) {ks ts : List Lexeme}
    (hlook : parserTables.look (parserActions now) ts = tok.major) (hks : ∀ k ∈ ks, LexemeOk k)
    (hσ : StackOk now (eraseStack σ) ks) (hok : ∀ e ∈ σ, RcOk e.symbol e.value)
    (hroom : σ.length < YYSTACKDEPTH) (hfuel : potential 3 symbolRank (eraseStack σ) < fuel)
    {res : YYParser × ParseCtx}
    (hres : parseLoop now tok fuel (eraseStack σ) yyerrcnt ctx.erase = .ok res) :
    Spec reads (stackCells σ) (parseLoopRc now tok fuel σ yyerrcnt ctx) fun r refs lost =>
      parseLoop now tok fuel (eraseStack σ) yyerrcnt ctx.erase = .ok (r.1.erase, r.2.erase) ∧
        ∃ ρ, Runs now (eraseStack σ, ts) (ρ, ts) ∧ StackOk now ρ ks ∧ ρ.length < YYSTACKDEPTH ∧
          SettledRc tok yyerrcnt ctx ρ r refs lost := by
  induction fuel generalizing σ with
  | zero => exact absurd hfuel (Nat.not_lt_zero _)
  | succ fuel ih =>
      have hroom' : (eraseStack σ).length < YYSTACKDEPTH := by rwa [length_eraseStack]
      have hpoppable := poppable_of_stackOk hσ hks hok
      cases hact : parserTables.action (stateno (eraseStack σ)) tok.major with
      | shift q =>
          rw [parseLoopRc_shift hact, parseLoop_shift hact]
          by_cases hfull : YYSTACKDEPTH ≤ σ.length + 1
          · refine (yyShiftRc_full hfull hpoppable).bind ?_
            rintro _ _ _ ⟨rfl, rfl, rfl⟩
            have hshift : yyShift (eraseStack σ) q (.t tok.major) (.yy0 tok.minor) = none :=
              if_pos (by rwa [length_eraseStack])
            refine .pure ⟨by rw [hshift]; rfl, _, .refl, hσ, hroom', ?_⟩
            rw [List.append_nil]
            exact .full rfl hok hact hfull
          · have hshift : yyShift (eraseStack σ) q (.t tok.major) (.yy0 tok.minor) =
                some ({ state := q, symbol := .t tok.major, value := .yy0 tok.minor } ::
                  eraseStack σ) :=
              if_neg (by rwa [length_eraseStack])
            rw [yyShiftRc_room hfull, hshift]
            exact .pure ⟨rfl, _, .refl, hσ, hroom', .shift rfl hok hact hfull (.refl _)⟩
      | accept =>
          obtain ⟨e, n, rfl, hn, herase⟩ := exists_cond_of_accept hσ hok hact
          have hrun : parseLoop now tok (fuel + 1) (eraseStack [e]) yyerrcnt ctx.erase = _ :=
            parseLoop_accept hact herase
          rw [parseLoopRc_accept hact, hrun]
          refine (yyReduceRc_accept hn).bind_holds ?_
          rintro _ rfl
          exact .pure ⟨rfl, _, .refl, hσ, hroom', .accept hact (.refl _)⟩
      | error =>
          rw [parseLoopRc_error hact, parseLoop_error hact]
          by_cases heoi : tok.major = .EOI
          · -- At the end of the input the stack is popped.
            rw [if_pos heoi, if_pos heoi]
            refine (yyPopAll_spec hpoppable).bind ?_
            rintro _ _ _ ⟨rfl, rfl⟩
            refine .pure ⟨?_, _, .refl, hσ, hroom', .error hact⟩
            rw [← erase_ite_syntaxError]
            rfl
          · rw [if_neg heoi, if_neg heoi]
            refine .pure ⟨?_, _, .refl, hσ, hroom', .error hact⟩
            rw [← erase_ite_syntaxError]
            rfl
      | reduce r =>
          rw [parseLoop_reduce hact] at hres
          rw [parseLoopRc_reduce hact, parseLoop_reduce hact]
          obtain ⟨reduced, hreduced, _⟩ := bind_eq_ok.1 hres
          refine (yyReduceRc_step hks hσ hok hroom hact hreduced).bind ?_
          rintro _ refs _ ⟨τ, rfl, hrun, hred, hokτ, hroomτ, hless, hrefs, rfl⟩
          rw [hrun, ok_bind] at hres ⊢
          have hrest := ih (hσ.reduce parserTables_checked hact hred) hokτ hroomτ (by omega) hres
          refine (hrest.perm hrefs).mono ?_
          rintro r' refs' lost' ⟨hrun', ρ, hruns, hρ, hlen, hsettled⟩
          refine ⟨hrun', ρ, .head (.reduce ?_ hred) hruns, hρ, hlen, hsettled⟩
          rw [hlook]
          exact hact

end Loop

/-! ## Runs of the driver -/

/-- The stack of the driver before a call of `Parse`. -/
def HasStackRc (p : RcParser) (σ : List RcStackEntry) : Prop :=
  (p.yystack = none ∧ σ = []) ∨ (p.yystack = some σ ∧ p.yyerrcnt ≤ 0)

theorem parseRc_spec {p : RcParser} (tok : Lexeme) (ctx : RcParseCtx) (ts : List Lexeme)
    {ks : List Lexeme} (hp : HasStackRc p σ)
    (hlook : parserTables.look (parserActions now) ts = tok.major) (hks : ∀ k ∈ ks, LexemeOk k)
    (hσ : StackOk now (eraseStack σ) ks) (hok : ∀ e ∈ σ, RcOk e.symbol e.value)
    (hroom : σ.length < YYSTACKDEPTH) {res : YYParser × ParseCtx}
    (hres : parse now p.erase tok ctx.erase = .ok res) :
    Spec reads (stackCells σ) (parseRc now p tok ctx) fun r refs lost =>
      parse now p.erase tok ctx.erase = .ok (r.1.erase, r.2.erase) ∧
        ∃ ρ yyerrcnt, yyerrcnt ≤ 0 ∧ Runs now (eraseStack σ, ts) (ρ, ts) ∧ StackOk now ρ ks ∧
          ρ.length < YYSTACKDEPTH ∧ SettledRc tok yyerrcnt ctx ρ r refs lost := by
  have hfuel : potential 3 symbolRank (eraseStack σ) < 3 * σ.length + 1 := by
    have hle := potential_le (eraseStack σ)
    rw [length_eraseStack] at hle
    exact Nat.lt_succ_of_le hle
  rcases hp with ⟨hnone, rfl⟩ | ⟨hsome, herr⟩
  · simp only [parse, RcParser.erase, hnone, Option.map_none] at hres
    simp only [parseRc, parse, RcParser.erase, hnone, Option.map_none]
    refine (parseLoopRc_spec (-1) hlook hks hσ hok hroom hfuel hres).mono ?_
    rintro r refs lost ⟨hrun, ρ, hruns, hρ, hlen, hsettled⟩
    exact ⟨hrun, ρ, -1, by decide, hruns, hρ, hlen, hsettled⟩
  · simp only [parse, RcParser.erase, hsome, Option.map_some, length_eraseStack] at hres
    simp only [parseRc, parse, RcParser.erase, hsome, Option.map_some, length_eraseStack]
    refine (parseLoopRc_spec p.yyerrcnt hlook hks hσ hok hroom hfuel hres).mono ?_
    rintro r refs lost ⟨hrun, ρ, hruns, hρ, hlen, hsettled⟩
    exact ⟨hrun, ρ, p.yyerrcnt, herr, hruns, hρ, hlen, hsettled⟩

end Driver

/-! ## Strings that are dropped -/

/-- An entry whose string no destructor frees. -/
def HasStringValue (e : YYStackEntry) : Prop :=
  e.symbol = .n .value ∧ ∃ s, e.value = .yy22 (.string s)

/-- The parser's stack overflows while a string is in an entry of `value`, at the first overflow or
at one after it. -/
inductive DropsString (now : Int64) : List YYStackEntry × List Lexeme → Prop where
  | here {c d : List YYStackEntry × List Lexeme} {toks : List Lexeme} :
      Runs now c d → parserTables.Full (parserActions now) d toks →
      (∃ e ∈ d.1, HasStringValue e) → DropsString now c
  | later {c : List YYStackEntry × List Lexeme} {toks : List Lexeme} :
      parserTables.Overflows (parserActions now) c toks → DropsString now ([], toks) →
      DropsString now c

section Drops

variable {now : Int64} {c d : List YYStackEntry × List Lexeme} {toks : List Lexeme}

theorem lostOf_eq_nil_iff {e : RcStackEntry} (h : RcOk e.symbol e.value) :
    lostOf e = [] ↔ ¬HasStringValue (eraseEntry e) := by
  obtain ⟨state, symbol, value⟩ := e
  by_cases hsymbol : symbol = .n .value
  · subst hsymbol
    obtain ⟨v, rfl⟩ := h
    cases v with
    | string s rc => simp [lostOf, HasStringValue, eraseEntry, RcMinor.erase, RcMinor.cells]
    | other v hv =>
        have hnot : ∀ s, v ≠ .string s := by
          rintro s rfl
          exact hv rfl
        simp [lostOf, HasStringValue, eraseEntry, RcMinor.erase, RcMinor.cells, hnot]
  · simp [lostOf, HasStringValue, eraseEntry, hsymbol]

theorem lostCells_eq_nil_iff {τ : List RcStackEntry} (h : ∀ e ∈ τ, RcOk e.symbol e.value) :
    lostCells τ = [] ↔ ¬∃ e ∈ eraseStack τ, HasStringValue e := by
  rw [lostCells, List.flatMap_eq_nil_iff]
  constructor
  · rintro hlost ⟨_, hmem, hstring⟩
    obtain ⟨e, he, rfl⟩ := List.mem_map.1 hmem
    exact (lostOf_eq_nil_iff (h e he)).1 (hlost e he) hstring
  · intro hnot e he
    exact (lostOf_eq_nil_iff (h e he)).2 fun hstring =>
      hnot ⟨eraseEntry e, List.mem_map_of_mem he, hstring⟩

/-- A step changes nothing of what is dropped. -/
theorem dropsString_iff_of_runs (h : Runs now c d) : DropsString now c ↔ DropsString now d := by
  constructor
  · rintro (⟨hruns, hfull, hstring⟩ | ⟨⟨e, hruns, hfull⟩, hlater⟩)
    · exact .here (hruns.of_stopped h hfull.stopped) hfull hstring
    · exact .later ⟨e, hruns.of_stopped h hfull.stopped, hfull⟩ hlater
  · rintro (⟨hruns, hfull, hstring⟩ | ⟨⟨e, hruns, hfull⟩, hlater⟩)
    · exact .here (h.trans hruns) hfull hstring
    · exact .later ⟨e, h.trans hruns, hfull⟩ hlater

/-- An overflow drops what is on the stack, and the parser goes on without a stack. -/
theorem dropsString_iff_of_full (h : parserTables.Full (parserActions now) d toks) :
    DropsString now d ↔ (∃ e ∈ d.1, HasStringValue e) ∨ DropsString now ([], toks) := by
  constructor
  · rintro (⟨hruns, hfull, hstring⟩ | ⟨hover, hlater⟩)
    · obtain rfl := Steps.unique .refl hruns h.stopped hfull.stopped
      exact .inl hstring
    · obtain rfl := Overflows.unique ⟨d, .refl, h⟩ hover
      exact .inr hlater
  · rintro (hstring | hlater)
    · exact .here .refl h hstring
    · exact .later ⟨d, .refl, h⟩ hlater

/-- Where the query is accepted nothing is dropped any more. -/
theorem not_dropsString_of_accept {σ : List YYStackEntry}
    (hact : parserTables.action (stateno σ) (parserTables.look (parserActions now) toks) =
      .accept) : ¬DropsString now (σ, toks) := by
  have hnot : ∀ {e ts}, Runs now (σ, toks) e → ¬parserTables.Full (parserActions now) e ts := by
    intro e ts hruns hfull
    obtain rfl := Steps.unique .refl hruns (stopped_of_accept hact) hfull.stopped
    cases hfull with
    | intro hshift _ => cases hact.symm.trans hshift
  rintro (⟨hruns, hfull, _⟩ | ⟨⟨e, hruns, hfull⟩, _⟩)
  · exact hnot hruns hfull
  · exact hnot hruns hfull

/-- Without an overflow nothing is dropped. -/
theorem not_dropsString_of_fits (h : Fits now toks) : ¬DropsString now ([], toks) := by
  rintro (⟨hruns, hfull, _⟩ | ⟨hover, _⟩)
  · exact h _ ⟨_, hruns, hfull⟩
  · exact h _ hover

end Drops

/-! ## Parsing -/

/-- Before the first syntax error and before the end. -/
def freshRcCtx : RcParseCtx where
  root := none
  ok := true
  errorMsg := none

/-- The entry of a token. -/
def shifted (q : YYState) (tok : Lexeme) : RcStackEntry where
  state := q
  symbol := .t tok.major
  value := .other (.yy0 tok.minor)

/-- Where there is a tree it has the strings that were not lost, and the stack is empty. -/
def Parsed (now : Int64) (c : List YYStackEntry × List Lexeme) (r : RcParser × RcParseCtx)
    (refs lost : List Cell) : Prop :=
  ∀ n, r.2.root = some n →
    r.1.yystack = none ∧ refs.Perm n.cells ∧ (lost = [] ↔ ¬DropsString now c)

section Run

variable {reads : List Cell} {now : Int64} {p : RcParser} {σ : List RcStackEntry}
  {ks : List Lexeme}

theorem parseTokensRc_cons (tok : Lexeme) (toks : List Lexeme) (eoi : Lexeme) :
    (parseTokensRc now (tok :: toks) p freshRcCtx >>= fun r => parseEndRc now eoi r.1 r.2) =
      parseRc now p tok freshRcCtx >>= fun r =>
        parseTokensRc now toks r.1 r.2 >>= fun r => parseEndRc now eoi r.1 r.2 :=
  Counting.bind_assoc _ _ _

theorem parseTokensRc_not_ok (toks : List Lexeme) {ctx : RcParseCtx} (h : ctx.ok = false)
    (eoi : Lexeme) :
    (parseTokensRc now toks p ctx >>= fun r => parseEndRc now eoi r.1 r.2) = pure (p, ctx) := by
  have htokens : parseTokensRc now toks p ctx = pure (p, ctx) := by
    cases toks with
    | nil => rfl
    | cons tok toks => simp [parseTokensRc, h]
  have hend : parseEndRc now eoi p ctx = pure (p, ctx) := by simp [parseEndRc, h]
  rw [htokens]
  exact hend

theorem Parsed.of_runs {c d : List YYStackEntry × List Lexeme} {r : RcParser × RcParseCtx}
    {refs lost : List Cell} (hruns : Runs now c d) (h : Parsed now d r refs lost) :
    Parsed now c r refs lost := by
  intro n hn
  obtain ⟨hnone, hcells, hlost⟩ := h n hn
  exact ⟨hnone, hcells, hlost.trans (not_congr (dropsString_iff_of_runs hruns)).symm⟩

/-- The strings that are lost are those of an overflow and those of the overflows after it. -/
theorem Parsed.of_full {τ : List RcStackEntry} {toks toks' : List Lexeme}
    {r : RcParser × RcParseCtx} {refs lost : List Cell} (hok : ∀ e ∈ τ, RcOk e.symbol e.value)
    (hfull : parserTables.Full (parserActions now) (eraseStack τ, toks) toks')
    (h : Parsed now ([], toks') r refs lost) :
    Parsed now (eraseStack τ, toks) r refs (lostCells τ ++ lost) := by
  intro n hn
  obtain ⟨hnone, hcells, hlost⟩ := h n hn
  refine ⟨hnone, hcells, ?_⟩
  rw [List.append_eq_nil_iff, hlost, lostCells_eq_nil_iff hok, dropsString_iff_of_full hfull, not_or]

/-- At the end of the input the last call accepts, or there is no tree. -/
theorem SettledRc.parsed {eoi : Lexeme} (heoi : eoi.major = .EOI) {yyerrcnt : Int}
    (herr : yyerrcnt ≤ 0) {ρ : List YYStackEntry} {r : RcParser × RcParseCtx}
    {refs lost : List Cell} (h : SettledRc eoi yyerrcnt freshRcCtx ρ r refs lost) :
    Parsed now (ρ, []) r refs lost := by
  intro n hn
  cases h with
  | shift _ _ hact => exact absurd heoi (major_ne_eoi hact)
  | full _ _ hact => exact absurd heoi (major_ne_eoi hact)
  | accept hact hrefs =>
      obtain rfl := Option.some.inj hn
      rw [heoi] at hact
      exact ⟨rfl, hrefs, iff_of_true rfl (not_dropsString_of_accept hact)⟩
  | error hact =>
      rw [if_pos herr] at hn
      cases hn

section Shift

variable {τ : List RcStackEntry} {q : YYState} {tok : Lexeme} {toks : List Lexeme}

theorem rcOk_shifted (htok : LexemeOk tok) (hok : ∀ e ∈ τ, RcOk e.symbol e.value) :
    ∀ e ∈ shifted q tok :: τ, RcOk e.symbol e.value := by
  intro e he
  rcases List.mem_cons.1 he with rfl | he
  · exact ⟨_, rfl, _, rfl, htok⟩
  · exact hok e he

theorem step_shifted (hact : parserTables.action (stateno (eraseStack τ)) tok.major = .shift q)
    (hroom : ¬YYSTACKDEPTH ≤ τ.length + 1) :
    parserTables.Step (parserActions now) (eraseStack τ, tok :: toks)
      (eraseStack (shifted q tok :: τ), toks) := by
  refine .shift hact ?_
  have hdepth : parserTables.limit + 1 = YYSTACKDEPTH := rfl
  rw [length_eraseStack]
  omega

theorem full_of_limit (hact : parserTables.action (stateno (eraseStack τ)) tok.major = .shift q)
    (hlimit : YYSTACKDEPTH ≤ τ.length + 1) :
    parserTables.Full (parserActions now) (eraseStack τ, tok :: toks) toks := by
  refine .intro hact ?_
  have hdepth : parserTables.limit + 1 = YYSTACKDEPTH := rfl
  rw [length_eraseStack]
  omega

end Shift

/-- Where the calls of `Parse` return without counting, they return the same. -/
theorem parseTokensRc_spec {eoi : Lexeme} (heoi : eoi.major = .EOI) {toks : List Lexeme}
    (hp : HasStackRc p σ) (hks : ∀ k ∈ ks, LexemeOk k) (hσ : StackOk now (eraseStack σ) ks)
    (hok : ∀ e ∈ σ, RcOk e.symbol e.value) (hroom : σ.length < YYSTACKDEPTH)
    (htoks : ∀ tok ∈ toks, LexemeOk tok ∧ tok.major ≠ .EOI) {res : ParseCtx}
    (hres : (parseTokens now toks p.erase freshCtx >>= fun r => parseEnd now eoi r.1 r.2) =
      .ok res) :
    Spec reads (stackCells σ)
      (parseTokensRc now toks p freshRcCtx >>= fun r => parseEndRc now eoi r.1 r.2)
      fun r refs lost =>
        (parseTokens now toks p.erase freshCtx >>= fun r => parseEnd now eoi r.1 r.2) =
            .ok r.2.erase ∧
          Parsed now (eraseStack σ, toks) r refs lost := by
  induction toks generalizing p σ ks with
  | nil =>
      have hend : (parseTokens now [] p.erase freshCtx >>= fun r => parseEnd now eoi r.1 r.2) =
          (parse now p.erase eoi freshCtx >>= fun r => .ok r.2) := rfl
      rw [hend] at hres
      obtain ⟨parsed, hfirst, _⟩ := bind_eq_ok.1 hres
      refine (parseRc_spec eoi freshRcCtx [] hp heoi.symm hks hσ hok hroom hfirst).mono ?_
      rintro r refs lost ⟨hrun, ρ, yyerrcnt, herr, hruns, -, -, hsettled⟩
      have hrun' : parse now p.erase eoi freshCtx = .ok (r.1.erase, r.2.erase) := hrun
      rw [hend, hrun']
      exact ⟨rfl, (hsettled.parsed heoi herr).of_runs hruns⟩
  | cons tok toks ih =>
      rw [List.forall_mem_cons] at htoks
      have hstart : parseTokens now (tok :: toks) p.erase freshCtx =
          (parse now p.erase tok freshCtx >>= fun r => parseTokens now toks r.1 r.2) := rfl
      rw [hstart, bind_assoc] at hres
      rw [parseTokensRc_cons, hstart]
      obtain ⟨parsed, hfirst, _⟩ := bind_eq_ok.1 hres
      refine (parseRc_spec tok freshRcCtx (tok :: toks) hp rfl hks hσ hok hroom hfirst).bind ?_
      rintro r refs lost ⟨hrun, ρ, yyerrcnt, herr, hruns, hρ, hlen, hsettled⟩
      have hrun' : parse now p.erase tok freshCtx = .ok (r.1.erase, r.2.erase) := hrun
      rw [hrun', ok_bind] at hres ⊢
      cases hsettled with
      | @shift τ q _ hτ hokτ hact hlimit hrefs =>
          subst hτ
          have hstack : HasStackRc { yystack := some (shifted q tok :: τ), yyerrcnt := yyerrcnt - 1 }
              (shifted q tok :: τ) :=
            Or.inr ⟨rfl, by simp only; omega⟩
          have hread : ∀ k ∈ ks ++ [tok], LexemeOk k :=
            List.forall_mem_append.2 ⟨hks, by simpa using htoks.1.1⟩
          have hrest := ih hstack hread (hρ.shift hact) (rcOk_shifted htoks.1.1 hokτ)
            (Nat.lt_of_not_le hlimit) htoks.2 hres
          refine (hrest.perm hrefs).mono ?_
          rintro r' refs' lost' ⟨hrest, hparsed⟩
          exact ⟨hrest, hparsed.of_runs (hruns.tail (step_shifted hact hlimit))⟩
      | @full τ q hτ hokτ hact hlimit =>
          -- The strings of values are lost, and the driver goes on with an empty stack.
          subst hτ
          have hstack : HasStackRc { yystack := none, yyerrcnt := yyerrcnt - 1 } [] :=
            Or.inl ⟨rfl, rfl⟩
          have hread : ∀ k ∈ ([] : List Lexeme), LexemeOk k := by simp
          refine (ih hstack hread valid_nil (by simp) (by decide) htoks.2 hres).mono ?_
          rintro r' refs' lost' ⟨hrest, hparsed⟩
          exact ⟨hrest, (hparsed.of_full hokτ (full_of_limit hact hlimit)).of_runs hruns⟩
      | accept hact => exact absurd (major_eq_eoi hact) htoks.1.2
      | error hact =>
          -- The rest of the input is not read, and there is no tree.
          rw [if_pos herr, parseTokensRc_not_ok toks rfl]
          refine .pure ⟨?_, fun n hn => ?_⟩
          · rw [parseTokens_not_ok toks rfl]
            rfl
          · cases hn

/-- `ParseQuery` returns what it returns without counting, and loses the strings that an overflow
of its stack drops. -/
theorem parseQueryRc_spec {strtod : List UInt8 → Strtod} {tok : Token} {c : List UInt8}
    {n : ParseNode} {msg : Option CString} (h : parseQuery now strtod tok c = .ok (some n, msg)) :
    Spec reads [] (parseQueryRc now strtod tok c) fun r refs lost =>
      ∃ n', r = (some n', msg) ∧ n'.erase = n ∧ refs.Perm n'.cells ∧
        (lost = [] ↔ ¬DropsString now ([], yylex strtod tok c)) := by
  have hstack : HasStackRc { yystack := none, yyerrcnt := 0 } [] := Or.inl ⟨rfl, rfl⟩
  have hread : ∀ k ∈ ([] : List Lexeme), LexemeOk k := by simp
  have heoi : (endOfInput tok (yylex strtod tok c)).major = .EOI := rfl
  have hassoc : parseQueryRc now strtod tok c =
      (parseTokensRc now (yylex strtod tok c) { yystack := none, yyerrcnt := 0 } freshRcCtx >>=
        fun r => parseEndRc now (endOfInput tok (yylex strtod tok c)) r.1 r.2) >>= fun r =>
      holding ((r.2.root.map RcParseNode.cells).getD []) (yyPopAll (r.1.yystack.getD [])) >>=
        fun _ => pure (r.2.root, r.2.errorMsg) :=
    (Counting.bind_assoc _ _ _).symm
  rw [hassoc]
  have hstart : parseQuery now strtod tok c =
      ((parseTokens now (yylex strtod tok c) (RcParser.erase { yystack := none, yyerrcnt := 0 })
          freshCtx >>= fun r => parseEnd now (endOfInput tok (yylex strtod tok c)) r.1 r.2) >>=
        fun ctx => .ok (ctx.root, ctx.errorMsg)) := by
    rw [bind_assoc]
    rfl
  rw [hstart] at h
  obtain ⟨ctx, hres, hctx⟩ := bind_eq_ok.1 h
  refine (parseTokensRc_spec heoi hstack hread valid_nil (by simp) (by decide)
    (fun l hl => yylex_ok hl) hres).bind ?_
  rintro r refs lost ⟨hrun, hparsed⟩
  obtain rfl : r.2.erase = ctx := Except.ok.inj (hrun.symm.trans hres)
  obtain ⟨hroot, hmsg⟩ : r.2.erase.root = some n ∧ r.2.erase.errorMsg = msg :=
    Prod.mk.inj (Except.ok.inj hctx)
  obtain ⟨n', hn', rfl⟩ := Option.map_eq_some_iff.1 hroot
  obtain ⟨hnone, hcells, hlost⟩ := hparsed n' hn'
  rw [hnone, hn']
  -- Nothing is left on the stack.
  have hpop : Spec reads ([] ++ n'.cells) (holding n'.cells (yyPopAll [])) _ :=
    (yyPopAll_spec (σ := []) (by simp)).holding n'.cells fun c hc => Or.inr hc
  refine (hpop.perm hcells).bind ?_
  rintro _ _ _ ⟨_, rfl, rfl, rfl⟩
  refine .pure ⟨n', ?_, rfl, .refl _, ?_⟩
  · rw [← hmsg]
    rfl
  · rw [lostCells, List.flatMap_nil, List.append_nil, List.append_nil]
    exact hlost

end Run

end Secondary
