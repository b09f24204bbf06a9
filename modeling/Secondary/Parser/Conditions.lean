import Secondary.Parser.DriverSpec
import Secondary.Query.Basic

/-!
# Conditions — conditions as sequences of operands

A condition is a sequence of operands between AND and OR, and an operand is a single predicate or a
condition in parentheses.  `seqTree` is the tree that the parser makes of a sequence: OR binds
tighter than AND, and both associate to the left.  `condSeq_runs` follows the parser along a sequence,
for any actions that join conditions as those of the grammar do.
-/

namespace Secondary

open Lib Lib.ShiftReduce

namespace SILogicOperator

def terminal : SILogicOperator → Terminal
  | opAnd => .AND
  | opOr => .OR

end SILogicOperator

/-! ## Trees of sequences -/

/-- `n` behind what is joined to it by AND. -/
def joinAnd : Option ParseNode → ParseNode → ParseNode
  | none, n => n
  | some a, n => newConditionNode a .AND n

/-- `n` behind what is joined to it by OR. -/
def joinOr : Option ParseNode → ParseNode → ParseNode
  | none, n => n
  | some b, n => newConditionNode b .OR n

/-- The tree of the operands `n` and `rest`, behind the condition `pend` and an AND. -/
def seqTree (pend : Option ParseNode) (n : ParseNode) :
    List (SILogicOperator × ParseNode) → ParseNode
  | [] => joinAnd pend n
  | (.opOr, m) :: rest => seqTree pend (newConditionNode n .OR m) rest
  | (.opAnd, m) :: rest => seqTree (some (joinAnd pend n)) m rest

/-! ## Sequences of tokens -/

section CondSeq

variable (sem : RuleValues)

/-- The rules `cond ::= prop op value`, `LIKE`, `IS` and `IN`. -/
def atomRules : List YYRule :=
  [7, 8, 9, 10]

/-- A single predicate. -/
def Atomic (ts : List Lexeme) (n : ParseNode) : Prop :=
  ∃ r ∈ atomRules, ∃ xs, Evaluates parserGrammar (tokenActions sem) (parserGrammar.rhs r) ts xs ∧
    sem r xs = some (.yy8 n)

/-- The tokens are a sequence of operands with the given trees. -/
inductive CondSeq : List Lexeme → ParseNode → List (SILogicOperator × ParseNode) → Prop where
  | atom {ts : List Lexeme} {n : ParseNode} : Atomic sem ts n → CondSeq ts n []
  | group {lp rp : Lexeme} {ts : List Lexeme} {n : ParseNode}
      {rest : List (SILogicOperator × ParseNode)} :
      lp.major = .LP → rp.major = .RP → CondSeq ts n rest →
      CondSeq (lp :: (ts ++ [rp])) (seqTree none n rest) []
  | more {ts us : List Lexeme} {c : Lexeme} {op : SILogicOperator} {n m : ParseNode}
      {rest : List (SILogicOperator × ParseNode)} :
      CondSeq ts n [] → c.major = op.terminal → CondSeq us m rest →
      CondSeq (ts ++ c :: us) n ((op, m) :: rest)

end CondSeq

variable {sem : RuleValues}

theorem CondSeq.append {ts us : List Lexeme} {c : Lexeme} {op : SILogicOperator} {n m : ParseNode}
    {rest rest' : List (SILogicOperator × ParseNode)} (h : CondSeq sem ts n rest)
    (hc : c.major = op.terminal) (h' : CondSeq sem us m rest') :
    CondSeq sem (ts ++ c :: us) n (rest ++ (op, m) :: rest') := by
  induction h with
  | atom ha => exact .more (.atom ha) hc h'
  | group hlp hrp hg _ => exact .more (.group hlp hrp hg) hc h'
  | more h1 hd _ _ ih2 =>
      rw [List.append_assoc]
      exact .more h1 hd ih2

/-! ## Derivations of conditions -/

/-- The tokens of a form, where those of conditions are sequences of operands. -/
inductive FormSeq (sem : RuleValues) : List Symbol → List Lexeme → Prop where
  | nil : FormSeq sem [] []
  | cond {Xs : List Symbol} {us ts : List Lexeme} {n : ParseNode}
      {rest : List (SILogicOperator × ParseNode)} :
      CondSeq sem us n rest → FormSeq sem Xs ts → FormSeq sem (.n .cond :: Xs) (us ++ ts)
  | term {a : Terminal} {Xs : List Symbol} {k : Lexeme} {ts : List Lexeme} :
      k.major = a → FormSeq sem Xs ts → FormSeq sem (.t a :: Xs) (k :: ts)
  | other {B : Nonterminal} {Xs : List Symbol} {us ts : List Lexeme} :
      B ≠ .cond → FormSeq sem Xs ts → FormSeq sem (.n B :: Xs) (us ++ ts)

/-- The right sides of `LP cond RP` and of the rules for AND and OR. -/
theorem FormSeq.condition (op : SILogicOperator) {us : List Lexeme}
    (h : FormSeq sem [.n .cond, .t op.terminal, .n .cond] us) :
    ∃ n rest, CondSeq sem us n rest := by
  cases h with
  | other hne _ => exact absurd rfl hne
  | cond hleft h =>
      cases h with
      | term hc h =>
          cases h with
          | other hne _ => exact absurd rfl hne
          | cond hright h =>
              cases h
              rw [List.append_nil]
              exact ⟨_, _, hleft.append hc hright⟩

theorem FormSeq.group {us : List Lexeme} (h : FormSeq sem [.t .LP, .n .cond, .t .RP] us) :
    ∃ n, CondSeq sem us n [] := by
  cases h with
  | term hlp h =>
      cases h with
      | other hne _ => exact absurd rfl hne
      | cond hg h =>
          cases h with
          | term hrp h =>
              cases h
              exact ⟨_, .group hlp hrp hg⟩

/-- A derivation of a form makes sequences of its conditions. -/
theorem formSeq_of_evaluates (htyped : TypedActions parserGrammar (tokenActions sem) MinorOk)
    {Xs : List Symbol} {ts : List Lexeme} {vs : List YYMINORTYPE}
    (h : Evaluates parserGrammar (tokenActions sem) Xs ts vs) (hts : ∀ k ∈ ts, LexemeOk k) :
    FormSeq sem Xs ts := by
  induction h with
  | nil => exact .nil
  | term _ ih =>
      rw [List.forall_mem_cons] at hts
      exact .term rfl (ih hts.2)
  | @rule r Xs us ts xs vs v hr hsem _ ihr ih =>
      rw [List.forall_mem_append] at hts
      have htail := ih hts.2
      by_cases hcond : parserGrammar.lhs r = .cond
      · rw [hcond]
        have hright := ihr hts.1
        have hsix : r = 7 ∨ r = 8 ∨ r = 9 ∨ r = 10 ∨ r = 11 ∨ r = 12 ∨ r = 13 := by
          have hall : ∀ r ∈ allRules, parserGrammar.lhs r = .cond →
              r = 7 ∨ r = 8 ∨ r = 9 ∨ r = 10 ∨ r = 11 ∨ r = 12 ∨ r = 13 := by
            decide +kernel
          exact hall r (mem_allRules r) hcond
        -- The value of a single predicate is its node.
        have hatom : r ∈ atomRules → ∃ n, CondSeq sem us n [] := by
          intro hmem
          have hminor := htyped r xs v (hr.typed htyped (minorOk_of_lexemeOk hts.1)) hsem
          rw [hcond] at hminor
          obtain ⟨n, rfl⟩ := hminor
          exact ⟨n, .atom ⟨r, hmem, xs, hr, hsem⟩⟩
        have hseq : ∃ n rest, CondSeq sem us n rest := by
          rcases hsix with rfl | rfl | rfl | rfl | rfl | rfl | rfl
          · exact (hatom (by decide)).imp fun n hn => ⟨[], hn⟩
          · exact (hatom (by decide)).imp fun n hn => ⟨[], hn⟩
          · exact (hatom (by decide)).imp fun n hn => ⟨[], hn⟩
          · exact (hatom (by decide)).imp fun n hn => ⟨[], hn⟩
          · exact (FormSeq.group hright).imp fun n hn => ⟨[], hn⟩
          · exact FormSeq.condition .opAnd hright
          · exact FormSeq.condition .opOr hright
        obtain ⟨n, rest, hseq⟩ := hseq
        exact .cond hseq htail
      · exact .other hcond htail

/-- What a condition derives is a sequence of operands. -/
theorem exists_condSeq (htyped : TypedActions parserGrammar (tokenActions sem) MinorOk)
    {ts : List Lexeme} {vs : List YYMINORTYPE}
    (h : Evaluates parserGrammar (tokenActions sem) [.n .cond] ts vs)
    (hts : ∀ k ∈ ts, LexemeOk k) : ∃ n rest, CondSeq sem ts n rest := by
  cases formSeq_of_evaluates htyped h hts with
  | cond hseq htail =>
      cases htail
      rw [List.append_nil]
      exact ⟨_, _, hseq⟩
  | other hne _ => exact absurd rfl hne

/-! ## Runs along sequences -/

/-- Parentheses keep a condition, and AND and OR join two of them. -/
structure JoinsConditions (sem : RuleValues) : Prop where
  group : ∀ x b y, sem 11 [x, .yy8 b, y] = some (.yy8 b)
  opAnd : ∀ b x c, sem 12 [.yy8 b, x, .yy8 c] = some (.yy8 (newConditionNode b .AND c))
  opOr : ∀ b x c, sem 13 [.yy8 b, x, .yy8 c] = some (.yy8 (newConditionNode b .OR c))

/-- Where a condition can begin: at the start, behind an open parenthesis, an OR or an AND. -/
def condGoto : YYState → Option YYState
  | 0 => some 15
  | 5 => some 47
  | 6 => some 14
  | 7 => some 17
  | _ => none

theorem gotoOf_cond (p : YYState) : gotoOf p .cond = condGoto p := by
  have hall : ∀ p ∈ allStates, gotoOf p .cond = condGoto p := by decide +kernel
  exact hall p (mem_allStates p)

theorem eagerAt_atom {r : YYRule} (hr : r ∈ atomRules) {p q : YYState} (hp : condGoto p = some q) :
    parserTables.EagerAt r p := by
  have hall : ∀ r ∈ atomRules, ∀ p ∈ allStates, (condGoto p).isSome →
      parserTables.eagerAtCheck alwaysReduces r p = true := by
    decide +kernel
  exact eagerAt_of_check alwaysReduces_parserTables
    (hall r hr p (mem_allStates p) (by rw [hp]; rfl))

theorem atom_symbols {r : YYRule} (hr : r ∈ atomRules) :
    parserGrammar.lhs r = .cond ∧ ∀ X ∈ parserGrammar.rhs r, eagerSymbol X = true := by
  have hall : ∀ r ∈ atomRules,
      parserGrammar.lhs r = .cond ∧ ∀ X ∈ parserGrammar.rhs r, eagerSymbol X = true := by
    decide +kernel
  exact hall r hr

/-- The entry of a finished condition. -/
def condEntry (q : YYState) (n : ParseNode) : YYStackEntry where
  state := q
  symbol := .n .cond
  value := .yy8 n

/-- The tokens are read as an operand wherever a condition can begin. -/
def OperandRuns (sem : RuleValues) (ts : List Lexeme) (n : ParseNode) : Prop :=
  ∀ p q, condGoto p = some q → parserTables.Goes (tokenActions sem) p (.n .cond) ts (.yy8 n) q

theorem atom_runs {ts : List Lexeme} {n : ParseNode} (h : Atomic sem ts n) :
    OperandRuns sem ts n := by
  intro p q hp
  obtain ⟨r, hr, xs, heval, hsem⟩ := h
  obtain ⟨hlhs, hrhs⟩ := atom_symbols hr
  have hgoto : parserTables.goto p (parserTables.grammar.lhs r) = some q := by
    change gotoOf p (parserGrammar.lhs r) = some q
    rw [hlhs, gotoOf_cond, hp]
  have hgoes := goes_rule parserTables_eager hrhs (eagerAt_atom hr hp) hgoto heval hsem
  rw [show parserTables.grammar.lhs r = .cond from hlhs] at hgoes
  exact hgoes

/-- The stack behind a condition and an AND that the tree of a sequence begins with. -/
inductive AndSlot (σ : List YYStackEntry) : Option ParseNode → List YYStackEntry → Prop where
  | start : AndSlot σ none σ
  | behind {a : ParseNode} {q : YYState} {x : YYMINORTYPE} :
      condGoto (stateno σ) = some q →
      AndSlot σ (some a) ({ state := 7, symbol := .t .AND, value := x } :: condEntry q a :: σ)

/-- The stack behind a condition and an OR that an operand is joined to. -/
inductive OrSlot (σ : List YYStackEntry) : Option ParseNode → List YYStackEntry → Prop where
  | start : OrSlot σ none σ
  | behind {b : ParseNode} {q : YYState} {x : YYMINORTYPE} :
      condGoto (stateno σ) = some q →
      OrSlot σ (some b) ({ state := 5, symbol := .t .OR, value := x } :: condEntry q b :: σ)

section Slots

variable {σ σ₁ τ : List YYStackEntry} {pend orWith : Option ParseNode} {n : ParseNode}
  {q q₁ : YYState} {us : List Lexeme}

/-- An operand behind an OR is joined to what is before it, whatever follows. -/
theorem closeOr (hsem : JoinsConditions sem) (hor : OrSlot σ₁ orWith τ)
    (hq : condGoto (stateno τ) = some q)
    (hq₁ : condGoto (stateno σ₁) = some q₁) :
    parserTables.Reaches (tokenActions sem) (condEntry q n :: τ, us)
      (condEntry q₁ (joinOr orWith n) :: σ₁, us) := by
  cases hor with
  | start =>
      obtain rfl := Option.some.inj (hq.symm.trans hq₁)
      exact .refl _
  | @behind b q' x hb =>
      obtain rfl : q = 47 := (Option.some.inj hq).symm
      obtain rfl := Option.some.inj (hb.symm.trans hq₁)
      have hact : parserTables.action 47 (parserTables.look (tokenActions sem) us) = .reduce 13 :=
        alwaysReduces_parserTables 47 13 rfl _
      have hgoto : parserTables.goto (parserTables.top σ₁) .cond = some q' :=
        (gotoOf_cond _).trans hb
      have hreduce : parserTables.Reaches (tokenActions sem)
          ([condEntry 47 n, { state := 5, symbol := .t .OR, value := x }, condEntry q' b] ++ σ₁, us)
          (condEntry q' (newConditionNode b .OR n) :: σ₁, us) :=
        reaches_reduce (r := 13) hact rfl (hsem.opOr _ _ _) hgoto
      exact hreduce

/-- At the end of the operands that OR joins, they are joined to what AND joins them to. -/
theorem closeAnd (hsem : JoinsConditions sem) (hand : AndSlot σ pend σ₁)
    (hq₁ : condGoto (stateno σ₁) = some q₁)
    (hq : condGoto (stateno σ) = some q) (hlook : parserTables.look (tokenActions sem) us ≠ .OR) :
    parserTables.Reaches (tokenActions sem) (condEntry q₁ n :: σ₁, us)
      (condEntry q (joinAnd pend n) :: σ, us) := by
  cases hand with
  | start =>
      obtain rfl := Option.some.inj (hq.symm.trans hq₁)
      exact .refl _
  | @behind a q' x ha =>
      obtain rfl : q₁ = 17 := (Option.some.inj hq₁).symm
      obtain rfl := Option.some.inj (ha.symm.trans hq)
      have hall : ∀ a ∈ Terminal.all, a ≠ .OR → parserTables.action 17 a = .reduce 12 := by
        decide +kernel
      have hact := hall _ (Terminal.mem_all _) hlook
      have hgoto : parserTables.goto (parserTables.top σ) .cond = some q' :=
        (gotoOf_cond _).trans ha
      have hreduce : parserTables.Reaches (tokenActions sem)
          ([condEntry 17 n, { state := 7, symbol := .t .AND, value := x }, condEntry q' a] ++ σ, us)
          (condEntry q' (newConditionNode a .AND n) :: σ, us) :=
        reaches_reduce (r := 12) hact rfl (hsem.opAnd _ _ _) hgoto
      exact hreduce

/-- A condition at the start or behind an open parenthesis, with AND or OR next. -/
theorem shiftOp {p : YYState} (hp : p = 0 ∨ p = 6) (hq : condGoto p = some q) :
    parserTables.action q .AND = .shift 7 ∧ parserTables.action q .OR = .shift 5 := by
  rcases hp with rfl | rfl
  · obtain rfl := Option.some.inj hq
    exact ⟨by decide +kernel, by decide +kernel⟩
  · obtain rfl := Option.some.inj hq
    exact ⟨by decide +kernel, by decide +kernel⟩

theorem shiftOr (hand : AndSlot σ pend σ₁) (hσ : stateno σ = 0 ∨ stateno σ = 6)
    (hq₁ : condGoto (stateno σ₁) = some q₁) : parserTables.action q₁ .OR = .shift 5 := by
  cases hand with
  | start => exact (shiftOp hσ hq₁).2
  | behind _ =>
      obtain rfl := Option.some.inj hq₁
      decide +kernel

end Slots

/-- From the slots of a sequence the tokens are read as the operands `n` and `rest`, when neither AND
nor OR follows. -/
def SequenceRuns (sem : RuleValues) (ts : List Lexeme) (n : ParseNode)
    (rest : List (SILogicOperator × ParseNode)) : Prop :=
  ∀ {σ pend σ₁ orWith τ q} (us : List Lexeme), stateno σ = 0 ∨ stateno σ = 6 →
    condGoto (stateno σ) = some q → AndSlot σ pend σ₁ → OrSlot σ₁ orWith τ →
    parserTables.look (tokenActions sem) us ≠ .AND →
    parserTables.look (tokenActions sem) us ≠ .OR →
    parserTables.Reaches (tokenActions sem) (τ, ts ++ us)
      (condEntry q (seqTree pend (joinOr orWith n) rest) :: σ, us)

section Run

variable {ts us : List Lexeme} {n m : ParseNode} {rest : List (SILogicOperator × ParseNode)}

theorem AndSlot.exists_goto {σ σ₁ : List YYStackEntry} {pend : Option ParseNode} {q : YYState}
    (h : AndSlot σ pend σ₁) (hq : condGoto (stateno σ) = some q) :
    ∃ q₁, condGoto (stateno σ₁) = some q₁ := by
  cases h with
  | start => exact ⟨q, hq⟩
  | behind _ => exact ⟨17, rfl⟩

theorem OrSlot.exists_goto {σ τ : List YYStackEntry} {orWith : Option ParseNode} {q : YYState}
    (h : OrSlot σ orWith τ) (hq : condGoto (stateno σ) = some q) :
    ∃ q₁, condGoto (stateno τ) = some q₁ := by
  cases h with
  | start => exact ⟨q, hq⟩
  | behind _ => exact ⟨47, rfl⟩

/-- The first operand of a sequence, joined to what is before it by OR. -/
theorem operand_then_or (hsem : JoinsConditions sem) (h : OperandRuns sem ts n)
    {σ₁ τ : List YYStackEntry}
    {orWith : Option ParseNode} {q₁ : YYState} (hor : OrSlot σ₁ orWith τ)
    (hq₁ : condGoto (stateno σ₁) = some q₁) (us : List Lexeme) :
    parserTables.Reaches (tokenActions sem) (τ, ts ++ us)
      (condEntry q₁ (joinOr orWith n) :: σ₁, us) := by
  obtain ⟨q, hq⟩ := hor.exists_goto hq₁
  exact (h _ _ hq τ rfl us).trans (closeOr hsem hor hq hq₁)

theorem sequenceRuns_operand (hsem : JoinsConditions sem) (h : OperandRuns sem ts n) :
    SequenceRuns sem ts n [] := by
  intro σ pend σ₁ orWith τ q us _ hq hand hor _ hnotOr
  obtain ⟨q₁, hq₁⟩ := hand.exists_goto hq
  exact (operand_then_or hsem h hor hq₁ us).trans (closeAnd hsem hand hq₁ hq hnotOr)

theorem operandRuns_group (hsem : JoinsConditions sem) {lp rp : Lexeme} (hlp : lp.major = .LP)
    (hrp : rp.major = .RP)
    (h : SequenceRuns sem ts n rest) :
    OperandRuns sem (lp :: (ts ++ [rp])) (seqTree none n rest) := by
  intro p q hp σ hσ us
  have hopen : parserTables.action (stateno σ) lp.major = .shift 6 := by
    have hall : ∀ p ∈ allStates, (condGoto p).isSome → parserTables.action p .LP = .shift 6 := by
      decide +kernel
    rw [show stateno σ = p from hσ, hlp]
    exact hall p (mem_allStates p) (by rw [hp]; rfl)
  obtain ⟨e, he⟩ : ∃ e : YYStackEntry,
      e = { state := 6, symbol := .t lp.major, value := .yy0 lp.minor } := ⟨_, rfl⟩
  obtain ⟨d, hd⟩ : ∃ d : YYStackEntry,
      d = { state := 48, symbol := .t rp.major, value := .yy0 rp.minor } := ⟨_, rfl⟩
  have hshift : parserTables.Reaches (tokenActions sem) (σ, lp :: (ts ++ rp :: us))
      (e :: σ, ts ++ rp :: us) := by
    rw [he]
    exact reaches_shift hopen _
  -- The sequence behind the parenthesis, up to the closing one.
  have hlook : parserTables.look (tokenActions sem) (rp :: us) = .RP := hrp
  have hstate : stateno (e :: σ) = 6 := by rw [he]; rfl
  have hseq : parserTables.Reaches (tokenActions sem) (e :: σ, ts ++ rp :: us)
      (condEntry 14 (seqTree none n rest) :: e :: σ, rp :: us) :=
    h (rp :: us) (Or.inr hstate) (by rw [hstate]; rfl) .start .start
      (by rw [hlook]; decide) (by rw [hlook]; decide)
  have hclose : parserTables.Reaches (tokenActions sem)
      (condEntry 14 (seqTree none n rest) :: e :: σ, rp :: us)
      (d :: condEntry 14 (seqTree none n rest) :: e :: σ, us) := by
    rw [hd]
    refine reaches_shift ?_ us
    change parserTables.action 14 rp.major = _
    rw [hrp]
    decide +kernel
  have hreduce : parserTables.Reaches (tokenActions sem)
      ([d, condEntry 14 (seqTree none n rest), e] ++ σ, us)
      (condEntry q (seqTree none n rest) :: σ, us) := by
    have hsymbols : symbols [d, condEntry 14 (seqTree none n rest), e] =
        parserTables.grammar.rhs 11 := by
      rw [he, hd, hlp, hrp]
      rfl
    have hact : parserTables.action (parserTables.top
        ([d, condEntry 14 (seqTree none n rest), e] ++ σ))
        (parserTables.look (tokenActions sem) us) = .reduce 11 := by
      rw [hd]
      exact alwaysReduces_parserTables 48 11 rfl _
    refine reaches_reduce hact hsymbols ?_ ?_
    · rw [he, hd]
      exact hsem.group _ _ _
    · rw [hσ]
      exact (gotoOf_cond p).trans hp
  rw [List.cons_append, List.append_assoc, List.singleton_append]
  exact ((hshift.trans hseq).trans hclose).trans hreduce

theorem sequenceRuns_more (hsem : JoinsConditions sem) {c : Lexeme} {op : SILogicOperator}
    (h : OperandRuns sem ts n)
    (hc : c.major = op.terminal) (h' : SequenceRuns sem us m rest) :
    SequenceRuns sem (ts ++ c :: us) n ((op, m) :: rest) := by
  intro σ pend σ₁ orWith τ q ws hσ hq hand hor hnotAnd hnotOr
  obtain ⟨q₁, hq₁⟩ := hand.exists_goto hq
  have hfirst := operand_then_or hsem h hor hq₁ (c :: (us ++ ws))
  rw [List.append_assoc, List.cons_append]
  refine hfirst.trans ?_
  cases op with
  | opOr =>
      -- OR is shifted; the next operand is joined to what is on the stack.
      have hact : parserTables.action q₁ c.major = .shift 5 := by
        rw [hc]
        exact shiftOr hand hσ hq₁
      have hshift : parserTables.Reaches (tokenActions sem)
          (condEntry q₁ (joinOr orWith n) :: σ₁, c :: (us ++ ws))
          ({ state := 5, symbol := .t c.major, value := .yy0 c.minor } ::
            condEntry q₁ (joinOr orWith n) :: σ₁, us ++ ws) :=
        reaches_shift hact _
      have hslot : OrSlot σ₁ (some (joinOr orWith n))
          ({ state := 5, symbol := .t c.major, value := .yy0 c.minor } ::
            condEntry q₁ (joinOr orWith n) :: σ₁) := by
        rw [hc]
        exact .behind hq₁
      exact hshift.trans (h' ws hσ hq hand hslot hnotAnd hnotOr)
  | opAnd =>
      -- AND closes what OR has joined, and begins a new operand of AND.
      have hlook : parserTables.look (tokenActions sem) (c :: (us ++ ws)) ≠ .OR := by
        rw [show parserTables.look (tokenActions sem) (c :: (us ++ ws)) = .AND from hc]
        decide
      have hact : parserTables.action q c.major = .shift 7 := by
        rw [hc]
        exact (shiftOp hσ hq).1
      have hshift : parserTables.Reaches (tokenActions sem)
          (condEntry q (joinAnd pend (joinOr orWith n)) :: σ, c :: (us ++ ws))
          ({ state := 7, symbol := .t c.major, value := .yy0 c.minor } ::
            condEntry q (joinAnd pend (joinOr orWith n)) :: σ, us ++ ws) :=
        reaches_shift hact _
      have hslot : AndSlot σ (some (joinAnd pend (joinOr orWith n)))
          ({ state := 7, symbol := .t c.major, value := .yy0 c.minor } ::
            condEntry q (joinAnd pend (joinOr orWith n)) :: σ) := by
        rw [hc]
        exact .behind hq
      exact ((closeAnd hsem hand hq₁ hq hlook).trans hshift).trans
        (h' ws hσ hq hslot .start hnotAnd hnotOr)

/-- The parser reads a sequence of operands as its tree, or its stack gets full. -/
theorem condSeq_runs (hsem : JoinsConditions sem) (h : CondSeq sem ts n rest) :
    (rest = [] → OperandRuns sem ts n) ∧ SequenceRuns sem ts n rest := by
  induction h with
  | atom hatom =>
      have hruns := atom_runs hatom
      exact ⟨fun _ => hruns, sequenceRuns_operand hsem hruns⟩
  | group hlp hrp _ ih =>
      have hruns := operandRuns_group hsem hlp hrp ih.2
      exact ⟨fun _ => hruns, sequenceRuns_operand hsem hruns⟩
  | more _ hc _ ih ih' =>
      exact ⟨fun h => (by cases h), sequenceRuns_more hsem (ih.1 rfl) hc ih'.2⟩

end Run

/-! ## Verdicts -/

/-- A sequence of operands is accepted with its tree, when the stack does not get full. -/
theorem verdict_of_condSeq (hsem : JoinsConditions sem) {ts : List Lexeme} {n : ParseNode}
    {rest : List (SILogicOperator × ParseNode)} (h : CondSeq sem ts n rest)
    (hfits : ∀ rest, ¬parserTables.Overflows (tokenActions sem) ([], ts) rest) :
    parserTables.Verdict (tokenActions sem) ([], ts) (some (.yy8 (seqTree none n rest))) := by
  have hlook : parserTables.look (tokenActions sem) [] = .EOI := rfl
  have hruns : parserTables.Reaches (tokenActions sem) ([], ts ++ [])
      ([condEntry 15 (seqTree none n rest)], []) :=
    (condSeq_runs hsem h).2 [] (Or.inl rfl) rfl .start .start (by rw [hlook]; decide)
      (by rw [hlook]; decide)
  have haccept : parserTables.action 15 .EOI = .accept := by decide +kernel
  rw [List.append_nil] at hruns
  rcases hruns with hsteps | ⟨us, hover⟩
  · exact .accept hsteps haccept
  · exact absurd hover (hfits us)

/-! ## The actions of the rules -/

theorem ruleValue_joins (now : Int64) : JoinsConditions (ruleValue now) where
  group _ _ _ := rfl
  opAnd _ _ _ := rfl
  opOr _ _ _ := rfl

/-- The stack of the parser does not get full on the tokens. -/
def Fits (now : Int64) (ts : List Lexeme) : Prop :=
  ∀ rest, ¬parserTables.Overflows (parserActions now) ([], ts) rest

end Secondary
