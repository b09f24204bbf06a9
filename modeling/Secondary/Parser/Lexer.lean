import Secondary.Lib.Pattern
import Secondary.Parser.Ast
import Secondary.ParseValue
import Secondary.Rdb

/-!
# Lexer — `tokenizer.l`

The rules of the scanner in their order, as patterns and actions.  The scanner is generated with
`lex -i`, so letters match in both cases.  A character at which no rule matches falls to the
default rule of `lex`: it is echoed, and scanning goes on behind it.
-/

namespace Secondary

open Lib

/-! ## Patterns -/

/-- Two characters that `lex -i` does not tell apart. -/
def sameLetter (a b : UInt8) : Bool :=
  decide (tolower a = tolower b)

def keyword (s : String) : Pattern UInt8 :=
  .word sameLetter (ascii s)

/-- `[0-9]` -/
def digitClass : Pattern UInt8 :=
  .one isDigit

/-- `[\-\+]?` -/
def signClass : Pattern UInt8 :=
  .opt (.one fun b => decide (b = 45 ∨ b = 43))

/-- `[A-Za-z_]` -/
def identStart (b : UInt8) : Bool :=
  decide ((65 ≤ b ∧ b ≤ 90) ∨ (97 ≤ b ∧ b ≤ 122) ∨ b = 95)

/-- `[A-Za-z0-9_]` -/
def identRest (b : UInt8) : Bool :=
  identStart b || isDigit b

/-- A string literal in the given quotes: `\\.` or anything but the quote, any number of times. -/
def quoted (quote : UInt8) : Pattern UInt8 :=
  .seq (.one fun b => decide (b = quote))
    (.seq
      (.many (.either (.seq (.one fun b => decide (b = 92)) (.one fun b => decide (b ≠ 10)))
        (.one fun b => decide (b ≠ quote))))
      (.one fun b => decide (b = quote)))

/-- What the action of a rule does with `tok`. -/
inductive TokenValue where
  /-- The rule leaves `tok` as it is. -/
  | keep
  /-- `atoi(yytext+1)` -/
  | enumerator
  /-- `atof(yytext)` -/
  | float
  /-- `atoi(yytext)` -/
  | integer
  /-- The text between the quotes. -/
  | string
  /-- `strdup(yytext)` -/
  | ident

/-- A rule: what its action returns and sets, or nothing for white space. -/
structure LexRule where
  pattern : Pattern UInt8
  action : Option (Terminal × TokenValue)

def keywordRule (s : String) (a : Terminal) : LexRule where
  pattern := keyword s
  action := some (a, .keep)

def lexRules : List LexRule :=
  [ keywordRule "AND" .AND,
    keywordRule "OR" .OR,
    keywordRule "IN" .IN,
    keywordRule "TRUE" .TRUE,
    keywordRule "FALSE" .FALSE,
    { pattern := .seq (keyword "$") digitClass, action := some (.ENUMERATOR, .enumerator) },
    { pattern := .seq signClass (.seq (.many digitClass) (.seq (keyword ".") (.some digitClass))),
      action := some (.FLOAT, .float) },
    { pattern := .seq signClass (.some digitClass), action := some (.INTEGER, .integer) },
    { pattern := .either (quoted 34) (quoted 39), action := some (.STRING, .string) },
    keywordRule "=" .EQ,
    keywordRule "!=" .NE,
    keywordRule ">=" .GE,
    keywordRule "<=" .LE,
    keywordRule ">" .GT,
    keywordRule "<" .LT,
    keywordRule "(" .LP,
    keywordRule ")" .RP,
    keywordRule "," .COMMA,
    keywordRule "IS" .IS,
    keywordRule "NULL" .TK_NULL,
    keywordRule "LIKE" .LIKE,
    keywordRule "NOW" .NOW,
    keywordRule "TODAY" .TODAY,
    keywordRule "TIME_ADD" .TIME_ADD,
    keywordRule "TIME_SUB" .TIME_SUB,
    keywordRule "SECONDS" .SECONDS,
    keywordRule "DAYS" .DAYS,
    keywordRule "HOURS" .HOURS,
    keywordRule "MINUTES" .MINUTES,
    keywordRule "UNIX" .UNIXTIME,
    { pattern := .seq (.one identStart) (.many (.one identRest)), action := some (.IDENT, .ident) },
    { pattern := .some (.one fun b => decide (b = 32 ∨ b = 9 ∨ b = 10)), action := none } ]

def lexPatterns : List (Pattern UInt8) :=
  lexRules.map LexRule.pattern

/-! ## Actions -/

/-- `atoi` -/
def atoi (str : List UInt8) : Int64 :=
  (Int32.ofInt (strtoll str).val).toInt64

/-- A string literal: the byte before the first NUL is overwritten, and the string begins behind
the opening quote. -/
def literalText (yytext : List UInt8) : CString :=
  cString ((cString yytext).bytes.dropLast.drop 1)

/-- `tok` after the action of a rule. -/
def tokenOf (strtod : List UInt8 → Strtod) (yytext : List UInt8) (tok : Token) :
    TokenValue → Token
  | .keep => tok
  | .enumerator => .intval (atoi (yytext.drop 1))
  | .float => .dval (strtod yytext).val
  | .integer => .intval (atoi yytext)
  | .string => .strval (literalText yytext)
  | .ident => .strval (cString yytext)

/-- `yytext`, as a C string, when the parser gets the token. -/
def yytextAfter (yytext : List UInt8) : TokenValue → CString
  | .string => cString (cString yytext).bytes.dropLast
  | _ => cString yytext

/-- What a call of `yylex` leaves for the parser. -/
structure Lexeme where
  major : Terminal
  minor : Token
  yytext : CString
  deriving DecidableEq

/-- The calls of `yylex` over the pieces of the input. -/
def lexemes (strtod : List UInt8 → Strtod) : Token → List (Piece UInt8) → List Lexeme
  | _, [] => []
  | tok, p :: ps =>
      match p.rule.bind fun i => (lexRules[i]?).bind LexRule.action with
      | some (a, act) =>
          { major := a, minor := tokenOf strtod p.text tok act,
            yytext := yytextAfter p.text act } ::
              lexemes strtod (tokenOf strtod p.text tok act) ps
      | none => lexemes strtod tok ps

/-- The tokens of a query; `tok` is what an earlier query has left in the global token. -/
def yylex (strtod : List UInt8 → Strtod) (tok : Token) (c : List UInt8) : List Lexeme :=
  lexemes strtod tok (pieces lexPatterns 0 c)

end Secondary
