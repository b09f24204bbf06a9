import Mathlib.Algebra.GroupWithZero.Nat
import Secondary.Lib.ShiftReduce
import Secondary.Fault
import Secondary.Parser.Ast

/-!
# Tables — the grammar of `parser.y` and the tables of `parser.c`

`parserRules` is the grammar, rule by rule.  The lists below are the arrays that `lemon` has made
from it; `yyFindShiftAction` and `yyFindReduceAction` look actions up in them.
-/

namespace Secondary

open Lib

/-! ## Grammar -/

/-- The rules of `parser.y`, in their order. -/
def parserRules : List (Nonterminal × List Symbol) :=
  [ (.query, [.n .cond]),
    (.op, [.t .EQ]),
    (.op, [.t .GT]),
    (.op, [.t .LT]),
    (.op, [.t .LE]),
    (.op, [.t .GE]),
    (.op, [.t .NE]),
    (.cond, [.n .prop, .n .op, .n .value]),
    (.cond, [.n .prop, .t .LIKE, .t .STRING]),
    (.cond, [.n .prop, .t .IS, .t .TK_NULL]),
    (.cond, [.n .prop, .t .IN, .n .vallist]),
    (.cond, [.t .LP, .n .cond, .t .RP]),
    (.cond, [.n .cond, .t .AND, .n .cond]),
    (.cond, [.n .cond, .t .OR, .n .cond]),
    (.value, [.t .INTEGER]),
    (.value, [.t .STRING]),
    (.value, [.t .FLOAT]),
    (.value, [.t .TRUE]),
    (.value, [.t .FALSE]),
    (.value, [.n .timestamp]),
    (.vallist, [.t .LP, .n .multivals, .t .RP]),
    (.multivals, [.n .value, .t .COMMA, .n .value]),
    (.multivals, [.n .multivals, .t .COMMA, .n .value]),
    (.prop, [.t .ENUMERATOR]),
    (.prop, [.t .IDENT]),
    (.timestamp, [.t .NOW]),
    (.timestamp, [.t .TODAY]),
    (.timestamp, [.t .TIME, .t .LP, .t .INTEGER, .t .RP]),
    (.timestamp, [.t .UNIXTIME, .t .LP, .t .INTEGER, .t .RP]),
    (.timestamp, [.t .TIME_ADD, .t .LP, .n .timestamp, .t .COMMA, .n .duration, .t .RP]),
    (.timestamp, [.t .TIME_SUB, .t .LP, .n .timestamp, .t .COMMA, .n .duration, .t .RP]),
    (.duration, [.t .DAYS, .t .LP, .t .INTEGER, .t .RP]),
    (.duration, [.t .HOURS, .t .LP, .t .INTEGER, .t .RP]),
    (.duration, [.t .MINUTES, .t .LP, .t .INTEGER, .t .RP]),
    (.duration, [.t .SECONDS, .t .LP, .t .INTEGER, .t .RP]) ]

abbrev YYNSTATE : Nat := 78

abbrev YYNRULE : Nat := 35

instance : NeZero YYNSTATE := ⟨Nat.succ_ne_zero 77⟩

instance : NeZero YYNRULE := ⟨Nat.succ_ne_zero 34⟩

/-- A state of the automaton. -/
abbrev YYState : Type :=
  Fin YYNSTATE

/-- `yyruleno` -/
abbrev YYRule : Type :=
  Fin YYNRULE

def parserGrammar : Grammar Terminal Nonterminal YYRule where
  lhs r := (parserRules.get (r.cast rfl)).1
  rhs r := (parserRules.get (r.cast rfl)).2

/-! ## Arrays -/

/-- `yy_action` -/
def yyAction : List Nat :=
  [64, 43, 69, 78, 7, 5, 70, 68, 67, 66, 42, 7, 5, 63, 44, 41, 38, 23, 77, 72, 76, 73, 75, 74,
   13, 19, 48, 20, 64, 35, 32, 29, 26, 18, 62, 65, 16, 39, 33, 6, 54, 63, 44, 41, 38, 23, 46, 45,
   114, 15, 51, 8, 40, 10, 17, 3, 8, 14, 47, 8, 8, 61, 60, 71, 50, 65, 65, 49, 12, 65, 34, 30,
   59, 31, 27, 58, 28, 24, 57, 25, 53, 56, 9, 5, 11, 55, 1, 52, 4, 2, 115, 36, 21, 37, 115, 115,
   115, 115, 115, 115, 115, 115, 115, 115, 115, 115, 115, 115, 115, 115, 22]

/-- `yy_lookahead` -/
def yyLookahead : List Nat :=
  [11, 15, 13, 0, 1, 2, 17, 18, 19, 20, 17, 1, 2, 24, 25, 26, 27, 28, 3, 4, 5, 6, 7, 8, 9, 10,
   16, 12, 11, 29, 30, 31, 32, 38, 16, 40, 41, 17, 17, 15, 13, 24, 25, 26, 27, 28, 22, 23, 34,
   35, 16, 37, 15, 15, 35, 21, 37, 35, 35, 37, 37, 16, 16, 38, 38, 40, 40, 38, 21, 40, 15, 17,
   16, 15, 17, 16, 15, 17, 16, 15, 14, 16, 15, 2, 21, 16, 15, 39, 36, 21, 43, 42, 42, 40, 43, 43,
   43, 43, 43, 43, 43, 43, 43, 43, 43, 43, 43, 43, 43, 43, 40]

/-- `yy_shift_ofst` -/
def yyShiftOfst : List Int :=
  [24, -11, -11, -11, -11, 24, 24, 24, 15, 17, 17, 0, 0, 71, 10, 3, 34, 81, 68, 66, 27, 69, 63,
   67, 65, 60, 64, 62, 57, 61, 59, 54, 58, 56, 21, 55, 46, 47, 38, 45, 20, 37, 18, -7, -14]

/-- `yy_reduce_ofst` -/
def yyReduceOfst : List Int :=
  [14, -5, 29, 26, 25, 23, 22, 19, 52, 70, 53, 50, 49, 48]

/-- `yy_default` -/
def yyDefault : List Nat :=
  [113, 113, 113, 113, 113, 113, 113, 113, 113, 113, 113, 113, 113, 113, 113, 113, 113, 90, 113,
   113, 113, 113, 113, 113, 113, 113, 113, 113, 113, 113, 113, 113, 113, 113, 113, 113, 113, 113,
   113, 113, 113, 113, 113, 113, 113, 102, 101, 91, 89, 99, 100, 98, 88, 87, 86, 108, 112, 111,
   110, 109, 107, 106, 105, 104, 103, 97, 96, 95, 94, 93, 92, 85, 84, 83, 82, 81, 80, 79]

/-- `yyRuleInfo`: the code of the left side, and the length of the right side. -/
def yyRuleInfo : List (Nat × Nat) :=
  [(34, 1), (36, 1), (36, 1), (36, 1), (36, 1), (36, 1), (36, 1), (35, 3), (35, 3), (35, 3),
   (35, 3), (35, 3), (35, 3), (35, 3), (38, 1), (38, 1), (38, 1), (38, 1), (38, 1), (38, 1),
   (39, 3), (41, 3), (41, 3), (37, 1), (37, 1), (40, 1), (40, 1), (40, 4), (40, 4), (40, 6),
   (40, 6), (42, 4), (42, 4), (42, 4), (42, 4)]

def YY_ERROR_ACTION : Nat := YYNSTATE + YYNRULE

def YY_ACCEPT_ACTION : Nat := YYNSTATE + YYNRULE + 1

def YY_SHIFT_COUNT : Nat := 44

def YY_SHIFT_USE_DFLT : Int := -15

def YY_REDUCE_COUNT : Nat := 13

def YY_REDUCE_USE_DFLT : Int := -6

def YY_ACTTAB_COUNT : Nat := 111

/-! ## Looking up -/

/-- `yyRuleInfo[yyruleno]` -/
def ruleInfo (yyruleno : YYRule) : Nat × Nat :=
  yyRuleInfo.get (yyruleno.cast rfl)

/-- The action at `ofst + iLookAhead`, where the table has one for the symbol. -/
def tableEntry (ofst : Int) (iLookAhead : Nat) : Option Nat :=
  let i := ofst + iLookAhead
  if i < 0 ∨ (YY_ACTTAB_COUNT : Int) ≤ i ∨ yyLookahead[i.toNat]? ≠ some iLookAhead then
    none
  else
    yyAction[i.toNat]?

/-- `yy_find_shift_action` -/
def yyFindShiftAction (stateno : YYState) (iLookAhead : Nat) : Nat :=
  let dflt := yyDefault.get (stateno.cast rfl)
  if YY_SHIFT_COUNT < stateno.val then
    dflt
  else
    match yyShiftOfst[stateno.val]? with
    | none => dflt
    | some ofst =>
        if ofst = YY_SHIFT_USE_DFLT then dflt else (tableEntry ofst iLookAhead).getD dflt

/-- `yy_find_reduce_action`; its assertions hold where there is an entry. -/
def yyFindReduceAction (stateno : YYState) (iLookAhead : Nat) : Exec Nat := do
  let ofst ← orFault yyReduceOfst[stateno.val]? .exit
  if ofst = YY_REDUCE_USE_DFLT then
    .error .exit
  else
    orFault (tableEntry ofst iLookAhead) .exit

/-- The number of entries that the stack has room for, the one at the bottom included. -/
def YYSTACKDEPTH : Nat := 100

/-! ## The automaton -/

/-- What an action number means.  Reducing by the first rule, `query ::= cond`, accepts. -/
def actionOf (yyact : Nat) : TableAction YYState YYRule :=
  if h : yyact < YYNSTATE then
    .shift ⟨yyact, h⟩
  else if yyact = YYNSTATE then
    .accept
  else if h : yyact - YYNSTATE < YYNRULE then
    .reduce ⟨yyact - YYNSTATE, h⟩
  else
    .error

/-- The states above `YY_SHIFT_COUNT` have a default action alone. -/
def alwaysReduces (q : YYState) : Option YYRule :=
  if YY_SHIFT_COUNT < q.val then
    match actionOf (yyDefault.get (q.cast rfl)) with
    | .reduce r => some r
    | _ => none
  else
    none

/-- The state after reducing to a nonterminal. -/
def gotoOf (stateno : YYState) (B : Nonterminal) : Option YYState :=
  match yyFindReduceAction stateno B.code with
  | .ok yyact => if h : yyact < YYNSTATE then some ⟨yyact, h⟩ else none
  | .error _ => none

/-- The parser of `parser.c`; one entry of its stack is below all symbols. -/
def parserTables : ShiftReduce YYState Terminal Nonterminal YYRule where
  grammar := parserGrammar
  start := 0
  action q a := actionOf (yyFindShiftAction q a.code)
  goto := gotoOf
  goal := .cond
  eoi := .EOI
  limit := YYSTACKDEPTH - 1

end Secondary
