import Secondary.Lib.Grammar
import Secondary.Value

/-!
# Ast — `parser.h`, `token.h` and `ast.h`

The terminals of the WHERE grammar under the names of `parser.h`, its nonterminals, the values that
tokens and symbols carry, and the parse tree.
-/

namespace Secondary

open Lib

/-! ## Symbols -/

/-- The terminals; `EOI` is the end of the input, which the driver passes as 0. -/
inductive Terminal where
  | EOI
  | AND
  | OR
  | EQ
  | NE
  | GT
  | GE
  | LT
  | LE
  | IN
  | IS
  | NOW
  | LIKE
  | STRING
  | TK_NULL
  | LP
  | RP
  | INTEGER
  | FLOAT
  | TRUE
  | FALSE
  | COMMA
  | ENUMERATOR
  | IDENT
  | TODAY
  | TIME
  | UNIXTIME
  | TIME_ADD
  | TIME_SUB
  | DAYS
  | HOURS
  | MINUTES
  | SECONDS
  deriving DecidableEq, Repr

namespace Terminal

def all : List Terminal :=
  [EOI, AND, OR, EQ, NE, GT, GE, LT, LE, IN, IS, NOW, LIKE, STRING, TK_NULL, LP, RP, INTEGER, FLOAT,
    TRUE, FALSE, COMMA, ENUMERATOR, IDENT, TODAY, TIME, UNIXTIME, TIME_ADD, TIME_SUB, DAYS, HOURS,
    MINUTES, SECONDS]

/-- The `#define` of `parser.h`. -/
def code : Terminal → Nat
  | EOI => 0
  | AND => 1
  | OR => 2
  | EQ => 3
  | NE => 4
  | GT => 5
  | GE => 6
  | LT => 7
  | LE => 8
  | IN => 9
  | IS => 10
  | NOW => 11
  | LIKE => 12
  | STRING => 13
  | TK_NULL => 14
  | LP => 15
  | RP => 16
  | INTEGER => 17
  | FLOAT => 18
  | TRUE => 19
  | FALSE => 20
  | COMMA => 21
  | ENUMERATOR => 22
  | IDENT => 23
  | TODAY => 24
  | TIME => 25
  | UNIXTIME => 26
  | TIME_ADD => 27
  | TIME_SUB => 28
  | DAYS => 29
  | HOURS => 30
  | MINUTES => 31
  | SECONDS => 32

theorem mem_all (a : Terminal) : a ∈ all := by
  cases a <;> decide

end Terminal

inductive Nonterminal where
  | query
  | cond
  | op
  | prop
  | value
  | vallist
  | timestamp
  | multivals
  | duration
  deriving DecidableEq, Repr

namespace Nonterminal

def all : List Nonterminal :=
  [query, cond, op, prop, value, vallist, timestamp, multivals, duration]

/-- The codes of nonterminals follow those of the terminals and of `error`. -/
def code : Nonterminal → Nat
  | query => 34
  | cond => 35
  | op => 36
  | prop => 37
  | value => 38
  | vallist => 39
  | timestamp => 40
  | multivals => 41
  | duration => 42

theorem mem_all (B : Nonterminal) : B ∈ all := by
  cases B <;> decide

end Nonterminal

abbrev Symbol : Type :=
  Sym Terminal Nonterminal

/-! ## Values -/

/-- The union `Token`. -/
inductive Token where
  | intval (i : Int64)
  | dval (d : UInt64)
  | strval (s : CString)
  deriving DecidableEq

structure Property where
  name : Option CString
  id : Int

/-- The union in a `PredicateNode`. -/
inductive PredicateOperand where
  | val (v : SIValue)
  | lst (vals : List SIValue)

structure PredicateNode where
  prop : Property
  op : Terminal
  operand : PredicateOperand

/-- `ParseNode`: a predicate, or a condition over two nodes. -/
inductive ParseNode where
  | pred (pn : PredicateNode)
  | cond (left : ParseNode) (op : Terminal) (right : ParseNode)

/-- The predicates of a tree, from left to right. -/
def ParseNode.preds : ParseNode → List PredicateNode
  | .pred pn => [pn]
  | .cond left _ right => left.preds ++ right.preds

def newPredicateNode (p : Property) (op : Terminal) (v : SIValue) : ParseNode :=
  .pred { prop := p, op := op, operand := .val v }

def newInPredicateNode (p : Property) (op : Terminal) (v : List SIValue) : ParseNode :=
  .pred { prop := p, op := op, operand := .lst v }

def newConditionNode (left : ParseNode) (op : Terminal) (right : ParseNode) : ParseNode :=
  .cond left op right

/-- The union of the values of all symbols.  The member `yy64` holds the code of an operator, or
the seconds of a duration. -/
inductive YYMINORTYPE where
  | yy0 (tok : Token)
  | yy8 (cond : ParseNode)
  | yy22 (value : SIValue)
  | yy23 (timestamp : Int64)
  | yy27 (vals : List SIValue)
  | yy44 (prop : Property)
  | yy64op (op : Terminal)
  | yy64 (duration : Int32)

/-- The member that the tokens of a terminal carry. -/
def TokenOk : Terminal → Token → Prop
  | .INTEGER, tok => ∃ i, tok = .intval i
  | .ENUMERATOR, tok => ∃ i, tok = .intval i
  | .FLOAT, tok => ∃ d, tok = .dval d
  | .STRING, tok => ∃ s, tok = .strval s
  | .IDENT, tok => ∃ s, tok = .strval s
  | _, _ => True

/-- The member that the value of a symbol is. -/
def MinorOk : Symbol → YYMINORTYPE → Prop
  | .t a, v => ∃ tok, v = .yy0 tok ∧ TokenOk a tok
  | .n .query, _ => True
  | .n .cond, v => ∃ n, v = .yy8 n
  | .n .op, v => ∃ o, v = .yy64op o
  | .n .prop, v => ∃ p, v = .yy44 p
  | .n .value, v => ∃ w, v = .yy22 w
  | .n .vallist, v => ∃ ws, v = .yy27 ws
  | .n .timestamp, v => ∃ t, v = .yy23 t
  | .n .multivals, v => ∃ ws, v = .yy27 ws
  | .n .duration, v => ∃ d, v = .yy64 d

end Secondary
