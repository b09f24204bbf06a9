import Secondary.Parser.Driver
import Secondary.Query.Counted

/-!
# Parser.Counted — the driver with the strings on its stack

The driver once more, with values whose strings are counted.  A string is made by the two rules that
read a literal, and then moves from the right side of a rule to its left side.  An entry that is
popped without a reduction is passed to the destructor of its symbol: `cond`, `vallist` and
`multivals` have one that frees values, and `value` has none.
-/

namespace Secondary

open Lib Lib.Counting

/-! ## Values of symbols -/

/-- `YYMINORTYPE`, with its strings counted; the other members have none. -/
inductive RcMinor
  | cond (n : RcParseNode)
  | value (v : RcValue)
  | vals (vs : List RcValue)
  | other (v : YYMINORTYPE)

namespace RcMinor

def erase : RcMinor → YYMINORTYPE
  | cond n => .yy8 n.erase
  | value v => .yy22 v.erase
  | vals vs => .yy27 (vs.map RcValue.erase)
  | other v => v

def cells : RcMinor → List Cell
  | cond n => n.cells
  | value v => v.cells
  | vals vs => vs.flatMap RcValue.cells
  | other _ => []

end RcMinor

abbrev RcStackEntry : Type :=
  Entry YYState Terminal Nonterminal RcMinor

def eraseEntry (e : RcStackEntry) : YYStackEntry where
  state := e.state
  symbol := e.symbol
  value := e.value.erase

/-- The counters of the values on the stack. -/
def stackCells (yystack : List RcStackEntry) : List Cell :=
  yystack.flatMap fun e => e.value.cells

def eraseStack (yystack : List RcStackEntry) : List YYStackEntry :=
  yystack.map eraseEntry

structure RcParser where
  yystack : Option (List RcStackEntry)
  yyerrcnt : Int

structure RcParseCtx where
  root : Option RcParseNode
  ok : Bool
  errorMsg : Option CString

def RcParser.erase (p : RcParser) : YYParser where
  yystack := p.yystack.map eraseStack
  yyerrcnt := p.yyerrcnt

def RcParseCtx.erase (ctx : RcParseCtx) : ParseCtx where
  root := ctx.root.map RcParseNode.erase
  ok := ctx.ok
  errorMsg := ctx.errorMsg

/-! ## Actions of the rules -/

section Driver

variable (now : Int64)

/-- `yyRuleMinor`.  The rules that are not listed make values without strings of such values. -/
def yyRuleMinorRc : Nat → List RcMinor → StringCounting RcMinor
  | 7, [.other (.yy44 b), .other (.yy64op c), .value d] =>
      pure (.cond (.pred { prop := b, op := c, operand := .val d }))
  | 8, [.other (.yy44 b), _, .other (.yy0 (.strval c))] => do
      let v ← siStringValC c.bytes
      pure (.cond (.pred { prop := b, op := .LIKE, operand := .val v }))
  | 9, [.other (.yy44 b), _, _] =>
      pure (.cond (.pred { prop := b, op := .IS, operand := .val .null }))
  | 10, [.other (.yy44 b), _, .vals d] =>
      pure (.cond (.pred { prop := b, op := .IN, operand := .lst d }))
  | 11, [_, .cond b, _] => pure (.cond b)
  | 12, [.cond b, _, .cond c] => pure (.cond (.cond b .AND c))
  | 13, [.cond b, _, .cond c] => pure (.cond (.cond b .OR c))
  | 14, [.other (.yy0 (.intval b))] => pure (.value (.other (.int64 b) (by simp [SIValue.type])))
  | 15, [.other (.yy0 (.strval b))] => do
      let v ← siStringValC b.bytes
      pure (.value v)
  | 16, [.other (.yy0 (.dval b))] => pure (.value (.other (.double b) (by simp [SIValue.type])))
  | 17, _ => pure (.value (.other (.bool 1) (by simp [SIValue.type])))
  | 18, _ => pure (.value (.other (.bool 0) (by simp [SIValue.type])))
  | 19, [.other (.yy23 b)] => pure (.value (.other (.time b) (by simp [SIValue.type])))
  | 20, [_, .vals b, _] => pure (.vals b)
  | 21, [.value b, _, .value c] => do
      let a ← ofExcept (multivalsAppend [] b.erase)
      let _ ← ofExcept (multivalsAppend a c.erase)
      pure (.vals [b, c])
  | 22, [.vals b, _, .value c] => do
      let _ ← ofExcept (multivalsAppend (b.map RcValue.erase) c.erase)
      pure (.vals (b ++ [c]))
  | yyruleno, minors => do
      let v ← ofExcept (yyRuleMinor now yyruleno (minors.map RcMinor.erase))
      pure (.other v)

def setRootRc (ctx : RcParseCtx) : List RcMinor → Exec RcParseCtx
  | [.cond a] => .ok { ctx with root := some a }
  | _ => .error .member

/-! ## Popping -/

/-- `yy_destructor`.  A value that no destructor frees is lost. -/
def yyDestructor : Symbol → RcMinor → StringCounting Unit
  | .n .cond, .cond n => parseNodeFree n
  | .n .vallist, .vals vs => siValueVectorFree vs
  | .n .multivals, .vals vs => siValueVectorFree vs
  | _, minor => loseRefs minor.cells

/-- `while (yyidx >= 0) yy_pop_parser_stack(pParser);` -/
def yyPopAll : List RcStackEntry → StringCounting Unit
  | [] => pure ()
  | e :: yystack => do
      holding (stackCells yystack) (yyDestructor e.symbol e.value)
      yyPopAll yystack

/-! ## Driver -/

/-- `yy_shift`; when the stack overflows the minor is not on it yet. -/
def yyShiftRc (yystack : List RcStackEntry) (yyNewState : YYState) (yyMajor : Symbol)
    (yyMinor : RcMinor) : StringCounting (Option (List RcStackEntry)) :=
  if YYSTACKDEPTH ≤ yystack.length + 1 then do
    holding (stackCells yystack) (loseRefs yyMinor.cells)
    yyPopAll yystack
    pure none
  else
    pure (some ({ state := yyNewState, symbol := yyMajor, value := yyMinor } :: yystack))

def statenoRc (yystack : List RcStackEntry) : YYState :=
  parserTables.top yystack

/-- `yy_reduce` -/
def yyReduceRc (yystack : List RcStackEntry) (ctx : RcParseCtx) (yyruleno : YYRule) :
    StringCounting (Option (List RcStackEntry) × RcParseCtx) := do
  let info := ruleInfo yyruleno
  if yystack.length < info.2 then
    ofExcept (.error .bounds)
  else do
    let minors := (yystack.take info.2).reverse.map Entry.value
    let below := yystack.drop info.2
    let yyact ← ofExcept (yyFindReduceAction (statenoRc below) info.1)
    if yyruleno = 0 then do
      let ctx ← ofExcept (setRootRc ctx minors)
      if yyact = YY_ACCEPT_ACTION then pure (none, ctx) else ofExcept (.error .exit)
    else do
      let yygotominor ← holding (stackCells below) (yyRuleMinorRc now yyruleno.val minors)
      if h : yyact < YYNSTATE then do
        let yystack ← yyShiftRc below ⟨yyact, h⟩ (.n (parserGrammar.lhs yyruleno)) yygotominor
        pure (yystack, ctx)
      else
        ofExcept (.error .exit)

def yySyntaxErrorRc (ctx : RcParseCtx) (yytext : CString) : RcParseCtx :=
  { ctx with
    ok := false
    errorMsg := some (cString
      (ascii "Syntax error in WHERE line 1 near '" ++ yytext.bytes ++ ascii "'")) }

/-- The loop of `Parse`.  The root is set by the last reduction of a query, so before that the
stack is all there is. -/
def parseLoopRc (tok : Lexeme) :
    Nat → List RcStackEntry → Int → RcParseCtx → StringCounting (RcParser × RcParseCtx)
  | 0, _, _, _ => ofExcept (.error .diverges)
  | fuel + 1, yystack, yyerrcnt, ctx =>
      let yyact := yyFindShiftAction (statenoRc yystack) tok.major.code
      if h : yyact < YYNSTATE then
        if tok.major = .EOI then
          ofExcept (.error .exit)
        else do
          let yystack ← yyShiftRc yystack ⟨yyact, h⟩ (.t tok.major) (.other (.yy0 tok.minor))
          pure ({ yystack := yystack, yyerrcnt := yyerrcnt - 1 }, ctx)
      else if h : yyact - YYNSTATE < YYNRULE then do
        let r ← yyReduceRc now yystack ctx ⟨yyact - YYNSTATE, h⟩
        match r.1 with
        | some yystack => parseLoopRc tok fuel yystack yyerrcnt r.2
        | none => pure ({ yystack := none, yyerrcnt := yyerrcnt }, r.2)
      else if yyact = YY_ERROR_ACTION then do
        let ctx := if yyerrcnt ≤ 0 then yySyntaxErrorRc ctx tok.yytext else ctx
        -- At the end of the input everything is popped.
        if tok.major = .EOI then do
          yyPopAll yystack
          pure ({ yystack := none, yyerrcnt := 3 }, ctx)
        else
          pure ({ yystack := some yystack, yyerrcnt := 3 }, ctx)
      else
        ofExcept (.error .exit)

/-- `Parse` -/
def parseRc (p : RcParser) (tok : Lexeme) (ctx : RcParseCtx) :
    StringCounting (RcParser × RcParseCtx) :=
  match p.yystack with
  | none => parseLoopRc now tok 1 [] (-1) ctx
  | some yystack => parseLoopRc now tok (3 * yystack.length + 1) yystack p.yyerrcnt ctx

def parseTokensRc : List Lexeme → RcParser → RcParseCtx → StringCounting (RcParser × RcParseCtx)
  | [], p, ctx => pure (p, ctx)
  | tok :: toks, p, ctx =>
      if ctx.ok then do
        let r ← parseRc now p tok ctx
        parseTokensRc toks r.1 r.2
      else
        pure (p, ctx)

def parseEndRc (eoi : Lexeme) (p : RcParser) (ctx : RcParseCtx) :
    StringCounting (RcParser × RcParseCtx) :=
  if ctx.ok then parseRc now p eoi ctx else pure (p, ctx)

/-- `ParseQuery`; in the end `ParseFree` pops what is left on the stack. -/
def parseQueryRc (strtod : List UInt8 → Strtod) (tok : Token) (c : List UInt8) :
    StringCounting (Option RcParseNode × Option CString) := do
  let toks := yylex strtod tok c
  let r ← parseTokensRc now toks { yystack := none, yyerrcnt := 0 }
    { root := none, ok := true, errorMsg := none }
  let r ← parseEndRc now (endOfInput tok toks) r.1 r.2
  holding ((r.2.root.map RcParseNode.cells).getD []) (yyPopAll (r.1.yystack.getD []))
  pure (r.2.root, r.2.errorMsg)

end Driver

end Secondary
