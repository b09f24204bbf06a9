import Mathlib.Algebra.GroupWithZero.Nat
import Secondary.Parser.Lexer

/-!
# LexYY — `lex.yy.c`, the scanner that `lex` has made of `tokenizer.l`

The tables, and the code around them: the loop that follows the tables, the way back to the last
accepting state, and the buffer, whose end is marked by two NUL characters.  A NUL of the query
looks like that end, so the scanner stops at it, goes over the token again and steps past the NUL by
hand.
-/

namespace Secondary

open Lib

/-! ## Tables -/

/-- `yy_accept` -/
def yyAccept : List Nat :=
  [0, 0, 0, 34, 33, 32, 33, 33, 33, 33, 16, 17, 33, 18, 33, 8, 15, 10, 14, 31, 31, 31, 31, 31,
   31, 31, 31, 31, 31, 31, 31, 31, 32, 11, 0, 9, 0, 6, 0, 0, 0, 8, 7, 13, 12, 31, 31, 31, 31,
   31, 3, 19, 31, 31, 31, 31, 2, 31, 31, 31, 31, 31, 0, 9, 0, 0, 9, 0, 1, 31, 31, 31, 31, 31,
   22, 31, 31, 31, 31, 31, 31, 27, 31, 31, 21, 31, 20, 31, 31, 31, 4, 30, 5, 28, 31, 31, 31,
   23, 31, 31, 31, 31, 29, 26, 31, 31, 24, 25, 0]

/-- `yy_ec` -/
def yyEc : List Nat :=
  [0, 1, 1, 1, 1, 1, 1, 1, 1, 2, 3, 1, 1, 1, 1, 1, 1, 1, 1, 1, 1, 1, 1, 1, 1, 1, 1, 1, 1, 1, 1,
   1, 2, 4, 5, 1, 6, 1, 1, 7, 8, 9, 1, 10, 11, 10, 12, 1, 13, 13, 13, 13, 13, 13, 13, 13, 13,
   13, 1, 1, 14, 15, 16, 1, 1, 17, 18, 19, 20, 21, 22, 23, 24, 25, 23, 26, 27, 28, 29, 30, 23,
   23, 31, 32, 33, 34, 23, 35, 36, 37, 23, 1, 38, 1, 1, 39, 1, 40, 41, 42, 43, 44, 45, 23, 46,
   47, 23, 48, 49, 50, 51, 52, 23, 23, 53, 54, 55, 56, 23, 57, 58, 59, 23, 1, 1, 1, 1, 1, 1, 1,
   1, 1, 1, 1, 1, 1, 1, 1, 1, 1, 1, 1, 1, 1, 1, 1, 1, 1, 1, 1, 1, 1, 1, 1, 1, 1, 1, 1, 1, 1, 1,
   1, 1, 1, 1, 1, 1, 1, 1, 1, 1, 1, 1, 1, 1, 1, 1, 1, 1, 1, 1, 1, 1, 1, 1, 1, 1, 1, 1, 1, 1, 1,
   1, 1, 1, 1, 1, 1, 1, 1, 1, 1, 1, 1, 1, 1, 1, 1, 1, 1, 1, 1, 1, 1, 1, 1, 1, 1, 1, 1, 1, 1, 1,
   1, 1, 1, 1, 1, 1, 1, 1, 1, 1, 1, 1, 1, 1, 1, 1, 1, 1, 1, 1, 1, 1, 1, 1, 1, 1, 1, 1, 1, 1, 1,
   1, 1]

/-- `yy_meta` -/
def yyMeta : List Nat :=
  [0, 1, 1, 1, 1, 1, 1, 1, 1, 1, 1, 1, 1, 2, 1, 1, 1, 2, 2, 2, 2, 2, 2, 2, 2, 2, 2, 2, 2, 2, 2,
   2, 2, 2, 2, 2, 2, 2, 1, 2, 2, 2, 2, 2, 2, 2, 2, 2, 2, 2, 2, 2, 2, 2, 2, 2, 2, 2, 2, 2]

/-- `yy_base` -/
def yyBase : List Nat :=
  [0, 0, 0, 210, 234, 58, 194, 57, 195, 56, 234, 234, 52, 234, 194, 54, 189, 234, 187, 39, 0,
   52, 53, 44, 46, 51, 52, 49, 49, 60, 78, 55, 69, 234, 77, 234, 82, 234, 79, 104, 188, 76,
   187, 234, 234, 0, 71, 73, 85, 79, 0, 0, 90, 89, 84, 94, 0, 103, 96, 106, 94, 104, 118, 122,
   134, 126, 129, 141, 0, 115, 120, 122, 133, 124, 0, 132, 131, 134, 145, 142, 129, 0, 145,
   136, 0, 137, 0, 142, 118, 136, 0, 0, 0, 0, 155, 162, 171, 0, 152, 159, 174, 162, 0, 0, 177,
   180, 0, 0, 234, 225, 227, 71, 229, 231]

/-- `yy_def` -/
def yyDef : List Nat :=
  [0, 108, 1, 108, 108, 108, 108, 109, 108, 110, 108, 108, 108, 108, 108, 108, 108, 108, 108,
   111, 111, 111, 111, 111, 111, 111, 111, 111, 111, 111, 111, 111, 108, 108, 109, 108, 112,
   108, 110, 113, 108, 108, 108, 108, 108, 111, 111, 111, 111, 111, 111, 111, 111, 111, 111,
   111, 111, 111, 111, 111, 111, 111, 109, 109, 112, 110, 110, 113, 111, 111, 111, 111, 111,
   111, 111, 111, 111, 111, 111, 111, 111, 111, 111, 111, 111, 111, 111, 111, 111, 111, 111,
   111, 111, 111, 111, 111, 111, 111, 111, 111, 111, 111, 111, 111, 111, 111, 111, 111, 0, 108,
   108, 108, 108, 108]

/-- `yy_nxt` -/
def yyNxt : List Nat :=
  [0, 4, 5, 5, 6, 7, 8, 9, 10, 11, 12, 13, 14, 15, 16, 17, 18, 19, 20, 20, 21, 20, 22, 20, 23,
   24, 20, 25, 26, 27, 28, 20, 29, 30, 31, 20, 20, 20, 4, 20, 19, 20, 20, 21, 20, 22, 23, 24,
   20, 25, 26, 27, 28, 20, 29, 30, 31, 20, 20, 20, 32, 32, 35, 35, 40, 41, 40, 41, 46, 47, 48,
   32, 32, 45, 49, 50, 52, 53, 51, 54, 56, 57, 35, 55, 61, 34, 35, 63, 40, 41, 46, 68, 47, 48,
   39, 36, 49, 50, 52, 53, 51, 54, 56, 58, 57, 55, 61, 38, 59, 60, 69, 66, 70, 71, 68, 36, 72,
   39, 73, 74, 64, 75, 76, 35, 77, 58, 78, 35, 79, 80, 59, 60, 69, 35, 70, 71, 35, 34, 72, 63,
   73, 74, 67, 75, 38, 76, 77, 81, 66, 78, 79, 80, 82, 83, 84, 88, 36, 96, 85, 86, 36, 87, 89,
   90, 39, 91, 92, 39, 93, 81, 94, 95, 64, 97, 82, 83, 98, 84, 88, 67, 85, 86, 99, 87, 102, 89,
   90, 91, 100, 92, 93, 103, 94, 95, 104, 97, 105, 106, 107, 98, 42, 42, 44, 101, 43, 99, 102,
   42, 37, 33, 108, 100, 108, 103, 108, 108, 108, 104, 105, 108, 106, 107, 108, 108, 108, 101,
   34, 34, 38, 38, 62, 62, 65, 65, 3, 108, 108, 108, 108, 108, 108, 108, 108, 108, 108, 108,
   108, 108, 108, 108, 108, 108, 108, 108, 108, 108, 108, 108, 108, 108, 108, 108, 108, 108,
   108, 108, 108, 108, 108, 108, 108, 108, 108, 108, 108, 108, 108, 108, 108, 108, 108, 108,
   108, 108, 108, 108, 108, 108, 108, 108, 108, 108, 108, 108]

/-- `yy_chk` -/
def yyChk : List Nat :=
  [0, 1, 1, 1, 1, 1, 1, 1, 1, 1, 1, 1, 1, 1, 1, 1, 1, 1, 1, 1, 1, 1, 1, 1, 1, 1, 1, 1, 1, 1, 1,
   1, 1, 1, 1, 1, 1, 1, 1, 1, 1, 1, 1, 1, 1, 1, 1, 1, 1, 1, 1, 1, 1, 1, 1, 1, 1, 1, 1, 1, 5, 5,
   7, 9, 12, 12, 15, 15, 19, 21, 22, 32, 32, 111, 23, 24, 25, 26, 24, 27, 28, 29, 34, 27, 31,
   36, 38, 36, 41, 41, 19, 46, 21, 22, 9, 7, 23, 24, 25, 26, 24, 27, 28, 30, 29, 27, 31, 39,
   30, 30, 47, 39, 48, 49, 46, 34, 52, 38, 53, 54, 36, 55, 57, 62, 58, 30, 59, 63, 60, 61, 30,
   30, 47, 65, 48, 49, 66, 64, 52, 64, 53, 54, 39, 55, 67, 57, 58, 69, 67, 59, 60, 61, 70, 71,
   72, 77, 62, 88, 73, 75, 63, 76, 78, 79, 65, 80, 82, 66, 83, 69, 85, 87, 64, 89, 70, 71, 94,
   72, 77, 67, 73, 75, 95, 76, 98, 78, 79, 80, 96, 82, 83, 99, 85, 87, 100, 89, 101, 104, 105,
   94, 42, 40, 18, 96, 16, 95, 98, 14, 8, 6, 3, 96, 0, 99, 0, 0, 0, 100, 101, 0, 104, 105, 0,
   0, 0, 96, 109, 109, 110, 110, 112, 112, 113, 113, 108, 108, 108, 108, 108, 108, 108, 108,
   108, 108, 108, 108, 108, 108, 108, 108, 108, 108, 108, 108, 108, 108, 108, 108, 108, 108,
   108, 108, 108, 108, 108, 108, 108, 108, 108, 108, 108, 108, 108, 108, 108, 108, 108, 108,
   108, 108, 108, 108, 108, 108, 108, 108, 108, 108, 108, 108, 108, 108, 108, 108]

/-- An entry of a table. -/
def yyAt (table : List Nat) (i : Nat) : Exec Nat :=
  orFault table[i]? .bounds

/-- The state from which no token can go on. -/
def yyJam : Nat :=
  108

/-- `yy_base` of a state that is left for no character. -/
def yyJamBase : Nat :=
  234

/-- `YY_END_OF_BUFFER` -/
def yyEndOfBuffer : Nat :=
  34

/-! ## Transitions -/

/-- `while ( yy_chk[yy_base[yy_current_state] + yy_c] != yy_current_state )` -/
def yyFollow : Nat → Nat → Nat → Exec (Nat × Nat)
  | 0, _, _ => .error .diverges
  | fuel + 1, q, c => do
      let base ← yyAt yyBase q
      let chk ← yyAt yyChk (base + c)
      if chk ≠ q then do
        let q ← yyAt yyDef q
        if 109 ≤ q then do
          let c ← yyAt yyMeta c
          yyFollow fuel q c
        else
          yyFollow fuel q c
      else
        .ok (q, c)

/-- The state behind a character of class `c`. -/
def yyNextState (q c : Nat) : Exec Nat := do
  let r ← yyFollow yyDef.length q c
  let base ← yyAt yyBase r.1
  yyAt yyNxt (base + r.2)

/-! ## The scanner -/

/-- The buffer and the variables that outlive a call of `yylex`. -/
structure YYScanner where
  /-- `yy_ch_buf` -/
  chBuf : List UInt8
  /-- `yy_n_chars` -/
  nChars : Nat
  /-- `yy_c_buf_p` -/
  cBufP : Nat
  /-- `yy_hold_char` -/
  holdChar : UInt8
  /-- `yytext_ptr` -/
  text : Nat
  lastAcceptingState : Nat
  lastAcceptingCpos : Nat

namespace YYScanner

def charAt (y : YYScanner) (i : Nat) : Exec UInt8 :=
  orFault y.chBuf[i]? .bounds

def setChar (y : YYScanner) (i : Nat) (b : UInt8) : Exec YYScanner :=
  if i < y.chBuf.length then
    .ok { y with chBuf := y.chBuf.set i b }
  else
    .error .bounds

/-- `if ( yy_accept[yy_current_state] )` -/
def note (y : YYScanner) (q cp : Nat) : Exec YYScanner := do
  let act ← yyAt yyAccept q
  if act ≠ 0 then
    .ok { y with lastAcceptingState := q, lastAcceptingCpos := cp }
  else
    .ok y

/-- `yytext`, as a C string. -/
def yytext (y : YYScanner) : CString :=
  cString (y.chBuf.drop y.text)

end YYScanner

/-- `yy_match`: the loop goes on until a state is reached that is not left again. -/
def yyMatch : Nat → YYScanner → Nat → Nat → Exec (YYScanner × Nat × Nat)
  | 0, _, _, _ => .error .diverges
  | fuel + 1, y, q, cp => do
      let b ← y.charAt cp
      let c ← yyAt yyEc b.toNat
      let y ← y.note q cp
      let q ← yyNextState q c
      let base ← yyAt yyBase q
      if base ≠ yyJamBase then
        yyMatch fuel y q (cp + 1)
      else
        .ok (y, q, cp + 1)

/-- `yy_find_action` and `YY_DO_BEFORE_ACTION`: the token ends here or where the last accepting
state was, and the character behind it is set aside for the NUL of `yytext`. -/
def yyFindAction (y : YYScanner) (bp q cp : Nat) : Exec (YYScanner × Nat) := do
  let act ← yyAt yyAccept q
  let r ←
    if act = 0 then do
      let act ← yyAt yyAccept y.lastAcceptingState
      .ok (y.lastAcceptingCpos, act)
    else
      .ok (cp, act)
  let hold ← y.charAt r.1
  let y ← y.setChar r.1 0
  .ok ({ y with text := bp, holdChar := hold, cBufP := r.1 }, r.2)

/-- `yy_get_previous_state`: the states once more, up to `yy_c_buf_p`. -/
def yyGetPreviousState (y : YYScanner) : Exec (YYScanner × Nat) :=
  (List.range (y.cBufP - y.text)).foldlM
    (fun r i => do
      let b ← r.1.charAt (y.text + i)
      let c ← if b ≠ 0 then yyAt yyEc b.toNat else .ok 1
      let y ← r.1.note r.2 (y.text + i)
      let q ← yyNextState r.2 c
      .ok (y, q))
    (y, 1)

/-- `yy_try_NUL_trans`; `0` if the token cannot go on. -/
def yyTryNulTrans (y : YYScanner) (q : Nat) : Exec (YYScanner × Nat) := do
  let y ← y.note q y.cBufP
  let q ← yyNextState q 1
  .ok (y, if q = yyJam then 0 else q)

/-- Where `yylex` goes on, with the state and `yy_cp`. -/
inductive YYLabel
  | yyMatch (q cp : Nat)
  | yyFindAction (q cp : Nat)

/-- `case YY_END_OF_BUFFER`.  The buffer is never filled again: behind its end there is one more
token if some text is left, and then nothing. -/
def yyEndOfBufferAction (y : YYScanner) : Exec (YYScanner × Option YYLabel) := do
  let amount := y.cBufP - y.text - 1
  let y ← y.setChar y.cBufP y.holdChar
  if y.cBufP ≤ y.nChars then do
    -- This was really a NUL.
    let r ← yyGetPreviousState { y with cBufP := y.text + amount }
    let t ← yyTryNulTrans r.1 r.2
    if t.2 ≠ 0 then
      .ok ({ t.1 with cBufP := t.1.cBufP + 1 }, some (.yyMatch t.2 (t.1.cBufP + 1)))
    else
      .ok (t.1, some (.yyFindAction r.2 t.1.cBufP))
  else if y.cBufP - y.text = 1 then
    .ok ({ y with cBufP := y.text }, none)
  else do
    let r ← yyGetPreviousState { y with cBufP := y.nChars }
    .ok (r.1, some (.yyFindAction r.2 r.1.cBufP))

/-- One token from `yy_bp` on: the number of its rule, or nothing at the end of the buffer. -/
def yyToken : Nat → YYScanner → Nat → YYLabel → Exec (YYScanner × Option Nat)
  | 0, _, _, _ => .error .diverges
  | fuel + 1, y, bp, .yyMatch q cp => do
      let r ← yyMatch (y.chBuf.length + 1) y q cp
      yyToken fuel r.1 bp (.yyFindAction r.2.1 r.2.2)
  | fuel + 1, y, bp, .yyFindAction q cp => do
      let r ← yyFindAction y bp q cp
      if r.2 = 0 then do
        let y ← r.1.setChar r.1.cBufP r.1.holdChar
        yyToken fuel y bp (.yyFindAction y.lastAcceptingState y.lastAcceptingCpos)
      else if r.2 = yyEndOfBuffer then do
        let t ← yyEndOfBufferAction r.1
        match t.2 with
        | some label => yyToken fuel t.1 t.1.text label
        | none => .ok (t.1, none)
      else if yyEndOfBuffer < r.2 then
        .error .exit
      else
        .ok (r.1, some r.2)

/-! ## Actions -/

/-- `*(yytext+strlen(yytext)-1) = '\0'` -/
def closeLiteral (y : YYScanner) : Exec YYScanner :=
  match y.text + y.yytext.bytes.length with
  | 0 => .error .bounds
  | i + 1 => y.setChar i 0

/-- What the action of a token rule leaves for the parser. -/
def yyDoAction (strtod : List UInt8 → Strtod) (y : YYScanner) (tok : Token) (major : Terminal) :
    TokenValue → Exec (YYScanner × Lexeme)
  | .string => do
      let y ← closeLiteral y
      .ok (y,
        { major := major, minor := .strval (cString (y.chBuf.drop (y.text + 1))),
          yytext := y.yytext })
  | act =>
      .ok (y,
        { major := major, minor := tokenOf strtod y.yytext.bytes tok act, yytext := y.yytext })

/-- `yylex`: rule `act` is case `act` of the switch.  White space and characters that no rule
matches are passed over. -/
def yylexCall (strtod : List UInt8 → Strtod) :
    Nat → YYScanner → Token → Exec (YYScanner × Option Lexeme)
  | 0, _, _ => .error .diverges
  | fuel + 1, y, tok => do
      let y ← y.setChar y.cBufP y.holdChar
      let r ← yyToken (2 * y.chBuf.length) y y.cBufP (.yyMatch 1 y.cBufP)
      match r.2 with
      | none => .ok (r.1, none)
      | some act =>
          match (lexRules[act - 1]?).bind LexRule.action with
          | some (major, value) => do
              let t ← yyDoAction strtod r.1 tok major value
              .ok (t.1, some t.2)
          | none => yylexCall strtod fuel r.1 tok

/-- The calls of `yylex` until there is nothing left. -/
def yylexCalls (strtod : List UInt8 → Strtod) :
    Nat → YYScanner → Token → Exec (List Lexeme)
  | 0, _, _ => .error .diverges
  | fuel + 1, y, tok => do
      let r ← yylexCall strtod y.chBuf.length y tok
      match r.2 with
      | none => .ok []
      | some l => do
          let ls ← yylexCalls strtod fuel r.1 l.minor
          .ok (l :: ls)

/-- `yy_scan_bytes`; the last accepting state is left from the query before. -/
def yyScanBytes (old : YYScanner) (bytes : List UInt8) : Exec YYScanner := do
  let y : YYScanner :=
    { old with chBuf := bytes ++ [0, 0], nChars := bytes.length, text := 0, cBufP := 0 }
  let hold ← y.charAt y.cBufP
  .ok { y with holdChar := hold }

/-- The tokens of a query, as the compiled scanner makes them. -/
def lexYY (strtod : List UInt8 → Strtod) (tok : Token) (old : YYScanner) (c : List UInt8) :
    Exec (List Lexeme) := do
  let y ← yyScanBytes old c
  yylexCalls strtod (c.length + 1) y tok

end Secondary
