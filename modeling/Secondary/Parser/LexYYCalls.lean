import Secondary.Parser.LexYYSpec

/-!
# LexYYCalls — the calls of `yylex`

Between two calls the scanner stands behind a token, with a NUL where the next token starts and the
character that belongs there set aside.  A call restores it, passes over white space and over what
no rule matches, and ends with the action of a rule.  The actions read `yytext` as a C string, so a
NUL inside a literal cuts it; no number can hold one.
-/

namespace Secondary

open Lib

/-! ## C strings in the buffer -/

theorem cString_append_nul (u v : List UInt8) : cString (u ++ 0 :: v) = cString u := by
  have hbytes : (u ++ 0 :: v).takeWhile (fun b => decide (b ≠ 0)) =
      u.takeWhile fun b => decide (b ≠ 0) := by
    induction u with
    | nil => rfl
    | cons b u ih =>
        rw [List.cons_append, List.takeWhile_cons, List.takeWhile_cons, ih]
  simp only [cString, hbytes]

/-- A buffer up to its first NUL, and the rest. -/
theorem exists_append_nul (u v : List UInt8) :
    ∃ w, u ++ 0 :: v = (cString u).bytes ++ 0 :: w := by
  induction u with
  | nil => exact ⟨v, rfl⟩
  | cons b u ih =>
      by_cases hb : b = 0
      · refine ⟨u ++ 0 :: v, ?_⟩
        simp [cString, hb]
      · obtain ⟨w, hw⟩ := ih
        refine ⟨w, ?_⟩
        rw [List.cons_append, hw]
        simp [cString, hb]

theorem cString_cons {b : UInt8} (hb : b ≠ 0) (u : List UInt8) :
    (cString (b :: u)).bytes = b :: (cString u).bytes := by
  simp [cString, hb]

theorem length_cString_le (u : List UInt8) : (cString u).bytes.length ≤ u.length :=
  (List.takeWhile_sublist _).length_le

/-! ## Tokens and their NULs -/

section Tokens

variable {r : LexRule} {a : Terminal} {act : TokenValue} {w : List UInt8}

/-- No number holds a NUL. -/
theorem notMem_of_number (hr : r ∈ lexRules) (h : r.action = some (a, act))
    (hact : act = .enumerator ∨ act = .float ∨ act = .integer) (hw : w ∈ r.pattern.language) :
    0 ∉ w := by
  have hkeyword : ∀ s : String, (ascii s).all (fun b => !sameLetter b 0) = true →
      ClassPattern.AllLetters (fun p => p 0 = false) (keyword s) := by
    intro s hs
    apply ClassPattern.allLetters_word
    intro b hb
    exact Bool.not_eq_true' _ ▸ List.all_eq_true.1 hs b hb
  simp only [lexRules, List.mem_cons, List.not_mem_nil, or_false] at hr
  rcases hr with rfl | rfl | rfl | rfl | rfl | rfl | rfl | rfl | rfl | rfl | rfl | rfl | rfl |
    rfl | rfl | rfl | rfl | rfl | rfl | rfl | rfl | rfl | rfl | rfl | rfl | rfl | rfl | rfl |
    rfl | rfl | rfl | rfl
  -- The three rules of numbers; the others have another action.
  case inr.inr.inr.inr.inr.inl =>
    apply ClassPattern.notMem_of_allLetters _ hw
    exact ⟨hkeyword "$" (by decide), rfl⟩
  case inr.inr.inr.inr.inr.inr.inl =>
    apply ClassPattern.notMem_of_allLetters _ hw
    exact ⟨⟨trivial, rfl⟩, rfl, hkeyword "." (by decide), rfl, rfl⟩
  case inr.inr.inr.inr.inr.inr.inr.inl =>
    apply ClassPattern.notMem_of_allLetters _ hw
    exact ⟨⟨trivial, rfl⟩, rfl, rfl⟩
  all_goals
    rcases hact with rfl | rfl | rfl
    all_goals cases h

/-- A literal begins with a quote. -/
theorem exists_quote (hr : r ∈ lexRules) (h : r.action = some (a, .string))
    (hw : w ∈ r.pattern.language) : ∃ quote u, w = quote :: u ∧ quote ≠ 0 := by
  have hquoted : ∀ {quote : UInt8}, quote ≠ 0 → w ∈ (quoted quote).language →
      ∃ quote u, w = quote :: u ∧ quote ≠ 0 := by
    intro quote hne hquoted
    obtain ⟨_, ⟨b, hb, rfl⟩, v, _, rfl⟩ := Language.mem_mul.1 hquoted
    refine ⟨b, v, rfl, ?_⟩
    rwa [of_decide_eq_true hb]
  simp only [lexRules, List.mem_cons, List.not_mem_nil, or_false] at hr
  rcases hr with rfl | rfl | rfl | rfl | rfl | rfl | rfl | rfl | rfl | rfl | rfl | rfl | rfl |
    rfl | rfl | rfl | rfl | rfl | rfl | rfl | rfl | rfl | rfl | rfl | rfl | rfl | rfl | rfl |
    rfl | rfl | rfl | rfl
  case inr.inr.inr.inr.inr.inr.inr.inr.inl =>
    rcases hw with hw | hw
    · exact hquoted (by decide) hw
    · exact hquoted (by decide) hw
  all_goals cases h

/-- An action makes the same of `yytext` up to its first NUL. -/
theorem tokenOf_cString (strtod : List UInt8 → Strtod) (tok : Token) (hr : r ∈ lexRules)
    (h : r.action = some (a, act)) (hw : w ∈ r.pattern.language) :
    tokenOf strtod (cString w).bytes tok act = tokenOf strtod w tok act := by
  have hnumber : act = .enumerator ∨ act = .float ∨ act = .integer → (cString w).bytes = w :=
    fun hact => cString_bytes_of_notMem (notMem_of_number hr h hact hw)
  cases act with
  | keep => rfl
  | enumerator => rw [hnumber (Or.inl rfl)]
  | float => rw [hnumber (Or.inr (Or.inl rfl))]
  | integer => rw [hnumber (Or.inr (Or.inr rfl))]
  | string => rw [tokenOf, tokenOf, literalText, literalText, cString_bytes]
  | ident => rw [tokenOf, tokenOf, cString_bytes]

end Tokens

/-! ## Between two calls -/

/-- The scanner will go on at `p`, where `t` is left; the character at `p` is set aside. -/
structure Ready (y : YYScanner) (p : Nat) (t : List UInt8) : Prop where
  cBufP : y.cBufP = p
  rest : (y.chBuf.set p y.holdChar).drop p = t ++ [0, 0]
  nChars : y.nChars = p + t.length
  length : y.chBuf.length = p + t.length + 2

/-- The scanner with another buffer. -/
def YYScanner.withBuf (y : YYScanner) (buf : List UInt8) : YYScanner :=
  { y with chBuf := buf }

section Ready

variable {y y' : YYScanner} {p m : Nat} {t : List UInt8}

theorem setChar_lt {i : Nat} (hi : i < y.chBuf.length) (b : UInt8) :
    y.setChar i b = .ok (y.withBuf (y.chBuf.set i b)) :=
  if_pos hi

namespace Ready

/-- A call of `yylex` puts the character back. -/
theorem restored (h : Ready y p t) :
    y.setChar y.cBufP y.holdChar = .ok (y.withBuf (y.chBuf.set p y.holdChar)) ∧
      Buffer (y.withBuf (y.chBuf.set p y.holdChar)) p t := by
  have hlt : p < y.chBuf.length := by
    rw [h.length]
    omega
  rw [h.cBufP]
  refine ⟨setChar_lt hlt _, h.rest, h.nChars, ?_⟩
  exact (List.length_set ..).trans h.length

/-- What is written before the next token does not touch it. -/
theorem written (h : Ready y p t) {i : Nat} (hi : i < p) (b : UInt8) :
    Ready (y.withBuf (y.chBuf.set i b)) p t := by
  refine ⟨h.cBufP, ?_, h.nChars, (List.length_set ..).trans h.length⟩
  show ((y.chBuf.set i b).set p y.holdChar).drop p = t ++ [0, 0]
  rw [List.set_comm _ _ (Nat.ne_of_lt hi), List.drop_set, if_pos hi]
  exact h.rest

end Ready

/-- Behind a token the scanner is ready for the next one. -/
theorem TokenEnd.ready (h : TokenEnd y y' p m) (hbuf : Buffer y p t) (hm : m ≤ t.length) :
    Ready y' (p + m) (t.drop m) := by
  have hlen : (t.drop m).length = t.length - m := List.length_drop
  refine ⟨h.cBufP, ?_, ?_, ?_⟩
  · have hback : y.chBuf.set (p + m) y'.holdChar = y.chBuf := by
      obtain ⟨hlt, hget⟩ := List.getElem?_eq_some_iff.1 h.hold
      rw [← hget]
      exact List.set_getElem_self hlt
    rw [h.chBuf, List.set_set, hback, ← List.drop_drop, hbuf.rest,
      List.drop_append_of_le_length hm]
  · rw [h.nChars, hbuf.nChars, hlen]
    omega
  · rw [h.chBuf, List.length_set, hbuf.length, hlen]
    omega

/-- `yytext` is the token, and a NUL behind it. -/
theorem TokenEnd.drop (h : TokenEnd y y' p m) (hbuf : Buffer y p t) (hm : m ≤ t.length) :
    ∃ v, y'.chBuf.drop y'.text = t.take m ++ 0 :: v := by
  have hlt : m < (t ++ [0, 0]).length := by
    rw [List.length_append]
    exact Nat.lt_add_right_iff_pos.2 (by decide) |>.trans_le' hm
  refine ⟨(t ++ [0, 0]).drop (m + 1), ?_⟩
  rw [h.text, h.chBuf, List.drop_set, if_neg (by omega), Nat.add_sub_cancel_left, hbuf.rest,
    List.set_eq_take_append_cons_drop, if_pos hlt, List.take_append_of_le_length hm]

end Ready

/-! ## Actions -/

section Actions

variable {y y' : YYScanner} {p m : Nat} {t : List UInt8} {r : LexRule} {a : Terminal}

/-- The action of a literal ends its text in front of the closing quote. -/
theorem closeLiteral_spec (h : Ready y (p + m) t) (htext : y.text = p) {quote : UInt8}
    {u v : List UInt8} (hquote : quote ≠ 0) (hdrop : y.chBuf.drop p = quote :: u ++ 0 :: v)
    (hm : m = (quote :: u).length) :
    ∃ y', closeLiteral y = .ok y' ∧ Ready y' (p + m) t ∧ y'.text = p ∧
      y'.yytext = cString (cString (quote :: u)).bytes.dropLast ∧
      cString (y'.chBuf.drop (p + 1)) = literalText (quote :: u) := by
  have hyytext : y.yytext = cString (quote :: u) := by
    rw [YYScanner.yytext, htext, hdrop, cString_append_nul]
  -- The text up to its first NUL is `bs` and one more character, which is overwritten.
  obtain ⟨w, hw⟩ := exists_append_nul (quote :: u) v
  obtain ⟨bs, b, hbs⟩ : ∃ bs b, (cString (quote :: u)).bytes = bs ++ [b] := by
    rcases List.eq_nil_or_concat (cString (quote :: u)).bytes with hnil | hlast
    · rw [cString_cons hquote] at hnil
      cases hnil
    · simpa only [List.concat_eq_append] using hlast
  have hlen : bs.length < m := by
    have hle := length_cString_le (quote :: u)
    rw [hbs, List.length_append] at hle
    rw [hm]
    exact hle
  have hlt : p + bs.length < y.chBuf.length := by
    rw [h.length]
    omega
  have hset : (y.chBuf.set (p + bs.length) 0).drop p = bs ++ 0 :: 0 :: w := by
    rw [List.drop_set, if_neg (by omega), Nat.add_sub_cancel_left, hdrop, hw, hbs,
      List.append_assoc, List.set_append_right _ _ (Nat.le_refl _), Nat.sub_self]
    rfl
  refine ⟨y.withBuf (y.chBuf.set (p + bs.length) 0), ?_, h.written (by omega) 0, htext, ?_, ?_⟩
  · rw [closeLiteral, hyytext, hbs, htext, List.length_append]
    exact setChar_lt hlt 0
  · rw [hbs, List.dropLast_concat, YYScanner.yytext]
    show cString ((y.chBuf.set (p + bs.length) 0).drop y.text) = cString bs
    rw [htext, hset, cString_append_nul]
  · rw [literalText, hbs, List.dropLast_concat]
    show cString ((y.chBuf.set (p + bs.length) 0).drop (p + 1)) = cString (bs.drop 1)
    rw [← List.drop_drop, hset]
    cases bs with
    | nil => exact cString_append_nul [] w
    | cons c bs => exact cString_append_nul bs (0 :: w)

theorem yyDoAction_other {act : TokenValue} (hact : act ≠ .string) {strtod : List UInt8 → Strtod}
    {tok : Token} :
    yyDoAction strtod y tok a act =
      .ok (y, { major := a, minor := tokenOf strtod y.yytext.bytes tok act,
                yytext := y.yytext }) := by
  cases act with
  | string => exact absurd rfl hact
  | _ => rfl

theorem yytextAfter_other {act : TokenValue} (hact : act ≠ .string) {w : List UInt8} :
    yytextAfter w act = cString w := by
  cases act with
  | string => exact absurd rfl hact
  | _ => rfl

/-- What an action leaves for the parser, and the scanner behind it. -/
theorem yyDoAction_spec (strtod : List UInt8 → Strtod) (tok : Token) {act : TokenValue}
    {w v : List UInt8} (hr : r ∈ lexRules) (haction : r.action = some (a, act))
    (hw : w ∈ r.pattern.language) (h : Ready y (p + m) t) (htext : y.text = p)
    (hdrop : y.chBuf.drop p = w ++ 0 :: v) (hm : m = w.length) :
    ∃ y', yyDoAction strtod y tok a act =
        .ok (y', { major := a, minor := tokenOf strtod w tok act,
                   yytext := yytextAfter w act }) ∧
      Ready y' (p + m) t := by
  have hyytext : y.yytext = cString w := by
    rw [YYScanner.yytext, htext, hdrop, cString_append_nul]
  by_cases hstring : act = .string
  · subst hstring
    obtain ⟨quote, u, rfl, hquote⟩ := exists_quote hr haction hw
    obtain ⟨y', hclose, hready, htext', hyytext', hliteral⟩ :=
      closeLiteral_spec h htext hquote hdrop hm
    refine ⟨y', ?_, hready⟩
    rw [yyDoAction, hclose, ok_bind, htext', hliteral, hyytext']
    rfl
  · refine ⟨y, ?_, h⟩
    rw [yyDoAction_other hstring, hyytext, tokenOf_cString strtod tok hr haction hw,
      yytextAfter_other hstring]

end Actions

/-! ## Calls -/

section Calls

variable {y : YYScanner} {p m i : Nat} {t : List UInt8}

/-- The rule of a piece; the default rule is no rule of the scanner's file. -/
theorem rule_bind (i : Nat) :
    ((if i < lexPatterns.length then some i else none).bind fun j =>
      (lexRules[j]?).bind LexRule.action) = (lexRules[i]?).bind LexRule.action := by
  split
  · rfl
  · next hi =>
      rw [List.getElem?_eq_none (by simpa [lexPatterns] using hi)]
      rfl

/-- The first token of a text: the longest match. -/
theorem pieces_of_longest (ht : t ≠ []) (hm : 1 ≤ m)
    (h : longest lexPatternsDefault t = some (m, i)) :
    pieces lexPatterns 0 t =
      { rule := if i < lexPatterns.length then some i else none, text := t.take m } ::
        pieces lexPatterns 0 (t.drop m) := by
  obtain ⟨b, s, rfl⟩ := List.exists_cons_of_ne_nil ht
  exact pieces_of_default h hm

/-- The longest match is a text of its rule. -/
theorem mem_of_longest {r : LexRule} (h : longest lexPatternsDefault t = some (m, i))
    (hr : lexRules[i]? = some r) : t.take m ∈ r.pattern.language := by
  obtain ⟨P, hP, hmem⟩ := (longest_eq_some_iff.1 h).2.2.1.1
  have hi : i < lexPatterns.length := by
    simpa [lexPatterns] using (List.getElem?_eq_some_iff.1 hr).1
  rw [lexPatternsDefault, List.getElem?_append_left hi, lexPatterns, List.getElem?_map, hr] at hP
  obtain rfl : r.pattern = P := Option.some.inj hP
  exact hmem

theorem lexState_zero_ne (t : List UInt8) : lexState t 0 ≠ yyJam := by
  rw [lexState_zero]
  decide

/-- A call of `yylex` makes the next lexeme, or there is none. -/
theorem yylexCall_spec (strtod : List UInt8 → Strtod) (tok : Token) (n : Nat) :
    ∀ {fuel : Nat} {y : YYScanner} {p : Nat} {t : List UInt8}, t.length = n → Ready y p t →
      n < fuel →
      (∃ y', yylexCall strtod fuel y tok = .ok (y', none) ∧
        lexemes strtod tok (pieces lexPatterns 0 t) = []) ∨
      (∃ y' l p' t', yylexCall strtod fuel y tok = .ok (y', some l) ∧
        lexemes strtod tok (pieces lexPatterns 0 t) =
          l :: lexemes strtod l.minor (pieces lexPatterns 0 t') ∧
        Ready y' p' t' ∧ t'.length < t.length) := by
  induction n using Nat.strong_induction_on with
  | _ n ih =>
      intro fuel y p t hn hready hfuel
      obtain ⟨fuel, rfl⟩ : ∃ f, fuel = f + 1 := ⟨fuel - 1, by omega⟩
      obtain ⟨hback, hbuf⟩ := hready.restored
      have hlen := hbuf.length
      by_cases ht : t = []
      · -- Nothing is left.
        subst ht
        have hfuel' : 2 ≤ 2 * (y.withBuf (y.chBuf.set p y.holdChar)).chBuf.length := by omega
        obtain ⟨y', hend⟩ := yyToken_nil hbuf hfuel'
        refine Or.inl ⟨y', ?_, rfl⟩
        rw [yylexCall, hback, ok_bind]
        show (yyToken _ _ y.cBufP (.yyMatch 1 y.cBufP) >>= _) = _
        rw [hready.cBufP, hend]
        rfl
      · have hfuel' : 2 * t.length + 3 ≤
            2 * (y.withBuf (y.chBuf.set p y.holdChar)).chBuf.length := by omega
        obtain ⟨y', m, i, htoken, hm, hmt, hlongest, hend⟩ :=
          yyToken_spec ht t.length ⟨rfl, rfl⟩ hbuf rfl (Nat.zero_le _) (lexState_zero_ne t) hfuel'
            (noted_zero _ p t)
        have hnext := hend.ready hbuf hmt
        have hshort : (t.drop m).length < t.length := by
          rw [List.length_drop]
          omega
        rw [yylexCall, hback, ok_bind]
        show (∃ y', (yyToken _ _ y.cBufP (.yyMatch 1 y.cBufP) >>= _) = _ ∧ _) ∨
          ∃ y' l p' t', (yyToken _ _ y.cBufP (.yyMatch 1 y.cBufP) >>= _) = _ ∧ _
        have htoken' : yyToken (2 * (y.withBuf (y.chBuf.set p y.holdChar)).chBuf.length)
            (y.withBuf (y.chBuf.set p y.holdChar)) p (.yyMatch 1 p) = .ok (y', some (i + 1)) :=
          htoken
        rw [hready.cBufP, htoken', ok_bind, pieces_of_longest ht hm hlongest, lexemes]
        simp only [rule_bind, Nat.add_sub_cancel]
        cases haction : (lexRules[i]?).bind LexRule.action with
        | none =>
            -- The scanner goes on within the same call.
            simp only
            rcases ih (t.drop m).length (by omega) rfl hnext
                (show (t.drop m).length < fuel by omega) with
              ⟨y'', hcall, hnil⟩ | ⟨y'', l, p', t', hcall, hcons, hready', hlt⟩
            · exact Or.inl ⟨y'', hcall, hnil⟩
            · exact Or.inr ⟨y'', l, p', t', hcall, hcons, hready', Nat.lt_trans hlt hshort⟩
        | some v =>
            obtain ⟨a, act⟩ := v
            obtain ⟨r, hr, hract⟩ := Option.bind_eq_some_iff.1 haction
            obtain ⟨v, hdrop⟩ := hend.drop hbuf hmt
            rw [hend.text] at hdrop
            have hlength : m = (t.take m).length := by
              rw [List.length_take, Nat.min_eq_left hmt]
            obtain ⟨y'', hact, hready'⟩ :=
              yyDoAction_spec strtod tok (List.mem_of_getElem? hr) hract
                (mem_of_longest hlongest hr) hnext hend.text hdrop hlength
            refine Or.inr ⟨y'', _, p + m, t.drop m, ?_, rfl, hready', hshort⟩
            simp only [hact, ok_bind]

/-- The calls of `yylex` make the lexemes of what is left. -/
theorem yylexCalls_spec (strtod : List UInt8 → Strtod) (n : Nat) :
    ∀ {fuel : Nat} {y : YYScanner} {p : Nat} {t : List UInt8} {tok : Token}, t.length = n →
      Ready y p t → n < fuel →
      yylexCalls strtod fuel y tok = .ok (lexemes strtod tok (pieces lexPatterns 0 t)) := by
  induction n using Nat.strong_induction_on with
  | _ n ih =>
      intro fuel y p t tok hn hready hfuel
      obtain ⟨fuel, rfl⟩ : ∃ f, fuel = f + 1 := ⟨fuel - 1, by omega⟩
      have henough : t.length < y.chBuf.length := by
        rw [hready.length]
        omega
      rw [yylexCalls]
      rcases yylexCall_spec strtod tok t.length rfl hready henough with
        ⟨y', hcall, hnil⟩ | ⟨y', l, p', t', hcall, hcons, hready', hlt⟩
      · simp only [hcall, ok_bind, hnil]
      · have hrest : yylexCalls strtod fuel y' l.minor =
            .ok (lexemes strtod l.minor (pieces lexPatterns 0 t')) :=
          ih t'.length (by omega) rfl hready' (by omega)
        simp only [hcall, ok_bind, hrest, hcons]

theorem yyScanBytes_spec (old : YYScanner) (c : List UInt8) :
    ∃ y, yyScanBytes old c = .ok y ∧ Ready y 0 c := by
  have hlt : 0 < (c ++ [0, 0]).length := by
    rw [List.length_append]
    exact Nat.lt_add_left _ (by decide)
  have hhold : (c ++ [0, 0])[0]? = some (c ++ [0, 0])[0] := List.getElem?_eq_getElem hlt
  refine ⟨{ old with chBuf := c ++ [0, 0], nChars := c.length, text := 0, cBufP := 0,
                     holdChar := (c ++ [0, 0])[0] }, ?_, rfl, ?_, ?_, ?_⟩
  · rw [yyScanBytes]
    simp only [YYScanner.charAt, hhold]
    rfl
  · show ((c ++ [0, 0]).set 0 (c ++ [0, 0])[0]).drop 0 = c ++ [0, 0]
    rw [List.drop_zero, List.set_getElem_self hlt]
  · exact (Nat.zero_add _).symm
  · show (c ++ [0, 0]).length = 0 + c.length + 2
    rw [List.length_append, Nat.zero_add]
    rfl

end Calls

/-- The compiled scanner makes the tokens of the token rules, of every query and whatever an earlier
query has left behind: it never reads outside its buffer or its tables, and it comes to an end. -/
theorem lexYY_eq_yylex (strtod : List UInt8 → Strtod) (tok : Token) (old : YYScanner)
    (c : List UInt8) : lexYY strtod tok old c = .ok (yylex strtod tok c) := by
  obtain ⟨y, hscan, hready⟩ := yyScanBytes_spec old c
  rw [lexYY, hscan, ok_bind, yylexCalls_spec strtod c.length rfl hready (Nat.lt_succ_self _)]
  rfl

end Secondary
