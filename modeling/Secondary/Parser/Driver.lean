import Secondary.Parser.Lexer
import Secondary.Parser.Tables
import Secondary.ValueVector

/-!
# Driver — `Parse` and `ParseQuery`

The driver that `lemon` puts around the tables: it is called with one token after the other and
keeps its stack in a `yyParser`.  When the stack overflows the driver pops everything and returns;
the next call starts with a new stack.  `ParseQuery` calls it until the end of the query or the first
syntax error.
-/

namespace Secondary

open Lib

/-- `yyStackEntry`: state, major and minor. -/
abbrev YYStackEntry : Type :=
  Entry YYState Terminal Nonterminal YYMINORTYPE

/-- `yyParser` -/
structure YYParser where
  /-- The entries above the one at the bottom, or none when `yyidx < 0`. -/
  yystack : Option (List YYStackEntry)
  yyerrcnt : Int

/-- `parseCtx` -/
structure ParseCtx where
  root : Option ParseNode
  ok : Bool
  errorMsg : Option CString

/-! ## Actions of the rules -/

section Driver

-- What `time` returns; it is the same for the whole query.
variable (now : Int64)

/-- `timestamp ::= TODAY` -/
def today : Int64 :=
  now - now % 86400

/-- The `switch` of `yy_reduce` after the first rule, on the minors of the right side. -/
def yyRuleMinor : Nat → List YYMINORTYPE → Exec YYMINORTYPE
  | 1, _ => .ok (.yy64op .EQ)
  | 2, _ => .ok (.yy64op .GT)
  | 3, _ => .ok (.yy64op .LT)
  | 4, _ => .ok (.yy64op .LE)
  | 5, _ => .ok (.yy64op .GE)
  | 6, _ => .ok (.yy64op .NE)
  | 7, [.yy44 b, .yy64op c, .yy22 d] => .ok (.yy8 (newPredicateNode b c d))
  | 8, [.yy44 b, _, .yy0 (.strval c)] => .ok (.yy8 (newPredicateNode b .LIKE (.string c.bytes)))
  | 9, [.yy44 b, _, _] => .ok (.yy8 (newPredicateNode b .IS .null))
  | 10, [.yy44 b, _, .yy27 d] => .ok (.yy8 (newInPredicateNode b .IN d))
  | 11, [_, .yy8 b, _] => .ok (.yy8 b)
  | 12, [.yy8 b, _, .yy8 c] => .ok (.yy8 (newConditionNode b .AND c))
  | 13, [.yy8 b, _, .yy8 c] => .ok (.yy8 (newConditionNode b .OR c))
  | 14, [.yy0 (.intval b)] => .ok (.yy22 (.int64 b))
  | 15, [.yy0 (.strval b)] => .ok (.yy22 (.string b.bytes))
  | 16, [.yy0 (.dval b)] => .ok (.yy22 (.double b))
  | 17, _ => .ok (.yy22 (.bool 1))
  | 18, _ => .ok (.yy22 (.bool 0))
  | 19, [.yy23 b] => .ok (.yy22 (.time b))
  | 20, [_, .yy27 b, _] => .ok (.yy27 b)
  | 21, [.yy22 b, _, .yy22 c] => do
      let a ← multivalsAppend [] b
      let a ← multivalsAppend a c
      .ok (.yy27 a)
  | 22, [.yy27 b, _, .yy22 c] => do
      let b ← multivalsAppend b c
      .ok (.yy27 b)
  | 23, [.yy0 (.intval b)] => .ok (.yy44 { name := none, id := b.toInt32.toInt })
  | 24, [.yy0 (.strval b)] => .ok (.yy44 { name := some b, id := 0 })
  | 25, _ => .ok (.yy23 now)
  | 26, _ => .ok (.yy23 (today now))
  | 27, [_, _, .yy0 (.intval b), _] => .ok (.yy23 b)
  | 28, [_, _, .yy0 (.intval b), _] => .ok (.yy23 b)
  | 29, [_, _, .yy23 b, _, .yy64 c, _] => .ok (.yy23 (b + c.toInt64))
  | 30, [_, _, .yy23 b, _, .yy64 c, _] => .ok (.yy23 (b - c.toInt64))
  | 31, [_, _, .yy0 (.intval b), _] => .ok (.yy64 (b * 86400).toInt32)
  | 32, [_, _, .yy0 (.intval b), _] => .ok (.yy64 (b * 3600).toInt32)
  | 33, [_, _, .yy0 (.intval b), _] => .ok (.yy64 (b * 60).toInt32)
  | 34, [_, _, .yy0 (.intval b), _] => .ok (.yy64 b.toInt32)
  -- A minor that is not the member that the action reads.
  | _, _ => .error .member

/-- `query ::= cond` sets the root. -/
def setRoot (ctx : ParseCtx) : List YYMINORTYPE → Exec ParseCtx
  | [.yy8 a] => .ok { ctx with root := some a }
  | _ => .error .member

/-! ## Driver -/

/-- `yy_shift`: the stack with one more entry, or no stack when it overflows. -/
def yyShift (yystack : List YYStackEntry) (yyNewState : YYState) (yyMajor : Symbol)
    (yyMinor : YYMINORTYPE) : Option (List YYStackEntry) :=
  if YYSTACKDEPTH ≤ yystack.length + 1 then
    none
  else
    some ({ state := yyNewState, symbol := yyMajor, value := yyMinor } :: yystack)

/-- The state at the top of the stack. -/
def stateno (yystack : List YYStackEntry) : YYState :=
  parserTables.top yystack

/-- `yy_reduce`: it pops the right side of the rule, and accepts or pushes the left side. -/
def yyReduce (yystack : List YYStackEntry) (ctx : ParseCtx) (yyruleno : YYRule) :
    Exec (Option (List YYStackEntry) × ParseCtx) := do
  let info := ruleInfo yyruleno
  if yystack.length < info.2 then
    .error .bounds
  else do
    let minors := (yystack.take info.2).reverse.map Entry.value
    let below := yystack.drop info.2
    let yyact ← yyFindReduceAction (stateno below) info.1
    if yyruleno = 0 then do
      let ctx ← setRoot ctx minors
      -- `yy_accept` pops the entry at the bottom as well.
      if yyact = YY_ACCEPT_ACTION then .ok (none, ctx) else .error .exit
    else do
      let yygotominor ← yyRuleMinor now yyruleno.val minors
      if h : yyact < YYNSTATE then
        .ok (yyShift below ⟨yyact, h⟩ (.n (parserGrammar.lhs yyruleno)) yygotominor, ctx)
      else
        .error .exit

/-- `%syntax_error` -/
def yySyntaxError (ctx : ParseCtx) (yytext : CString) : ParseCtx :=
  { ctx with
    ok := false
    errorMsg := some (cString
      (ascii "Syntax error in WHERE line 1 near '" ++ yytext.bytes ++ ascii "'")) }

/-- The loop of `Parse` for one token: reductions, then a shift or an error. -/
def parseLoop (tok : Lexeme) :
    Nat → List YYStackEntry → Int → ParseCtx → Exec (YYParser × ParseCtx)
  | 0, _, _, _ => .error .diverges
  | fuel + 1, yystack, yyerrcnt, ctx =>
      let yyact := yyFindShiftAction (stateno yystack) tok.major.code
      if h : yyact < YYNSTATE then
        -- It is impossible to shift the end of the input.
        if tok.major = .EOI then
          .error .exit
        else
          .ok ({ yystack := yyShift yystack ⟨yyact, h⟩ (.t tok.major) (.yy0 tok.minor),
                 yyerrcnt := yyerrcnt - 1 }, ctx)
      else if h : yyact - YYNSTATE < YYNRULE then do
        let r ← yyReduce now yystack ctx ⟨yyact - YYNSTATE, h⟩
        match r.1 with
        | some yystack => parseLoop tok fuel yystack yyerrcnt r.2
        | none => .ok ({ yystack := none, yyerrcnt := yyerrcnt }, r.2)
      else if yyact = YY_ERROR_ACTION then
        -- There is no message while the last error is less than three shifts ago.
        .ok ({ yystack := if tok.major = .EOI then none else some yystack, yyerrcnt := 3 },
          if yyerrcnt ≤ 0 then yySyntaxError ctx tok.yytext else ctx)
      else
        .error .exit

/-- `Parse`.  Every entry is reduced at most three times before the next shift. -/
def parse (p : YYParser) (tok : Lexeme) (ctx : ParseCtx) : Exec (YYParser × ParseCtx) :=
  match p.yystack with
  | none => parseLoop now tok 1 [] (-1) ctx
  | some yystack => parseLoop now tok (3 * yystack.length + 1) yystack p.yyerrcnt ctx

/-- `while (ctx.ok && 0 != (t = yylex())) Parse(pParser, t, tok, &ctx);` -/
def parseTokens : List Lexeme → YYParser → ParseCtx → Exec (YYParser × ParseCtx)
  | [], p, ctx => .ok (p, ctx)
  | tok :: toks, p, ctx =>
      if ctx.ok then do
        let r ← parse now p tok ctx
        parseTokens toks r.1 r.2
      else
        .ok (p, ctx)

/-- The end of the input, with the token that was read last. -/
def endOfInput (tok : Token) (toks : List Lexeme) : Lexeme where
  major := .EOI
  minor := (toks.getLast?.map Lexeme.minor).getD tok
  yytext := cString []

/-- `if (ctx.ok) Parse(pParser, 0, tok, &ctx);` -/
def parseEnd (eoi : Lexeme) (p : YYParser) (ctx : ParseCtx) : Exec ParseCtx :=
  if ctx.ok then do
    let r ← parse now p eoi ctx
    .ok r.2
  else
    .ok ctx

/-- `ParseQuery`: the tree, or NULL, and the error message. -/
def parseQuery (strtod : List UInt8 → Strtod) (tok : Token) (c : List UInt8) :
    Exec (Option ParseNode × Option CString) := do
  let toks := yylex strtod tok c
  let r ← parseTokens now toks { yystack := none, yyerrcnt := 0 }
    { root := none, ok := true, errorMsg := none }
  let ctx ← parseEnd now (endOfInput tok toks) r.1 r.2
  .ok (ctx.root, ctx.errorMsg)

end Driver

end Secondary
