import Secondary.Lib.Automaton
import Secondary.Lib.Packed
import Secondary.Parser.LexYY

/-!
# LexTablesSpec — the tables of `lex.yy.c` against the rules of `tokenizer.l`

The tables are evaluated as packed numbers.  They move from state to state as the rests of the token
rules move from set to set, so the longest match by the tables is the longest match by the rules.
A NUL of the query is in the class of the characters that only string literals take.
-/

namespace Secondary

open Lib

/-! ## Packed tables -/

def packedAccept : Nat := pack yyAccept

def packedEc : Nat := pack yyEc

def packedMeta : Nat := pack yyMeta

def packedBase : Nat := pack yyBase

def packedDef : Nat := pack yyDef

def packedNxt : Nat := pack yyNxt

def packedChk : Nat := pack yyChk

/-- `yyNextState` on the packed tables. -/
def packedNext : Nat → Nat → Nat → Option Nat
  | 0, _, _ => none
  | fuel + 1, q, c =>
      bif Nat.beq (look packedChk (look packedBase q + c)) q then
        some (look packedNxt (look packedBase q + c))
      else bif Nat.ble 109 (look packedDef q) then
        packedNext fuel (look packedDef q) (look packedMeta c)
      else
        packedNext fuel (look packedDef q) c

/-- The entries fit, and the lengths and bounds of the tables. -/
theorem packed_checked :
    ([(yyAccept, 109), (yyEc, 256), (yyMeta, 60), (yyBase, 114), (yyDef, 114), (yyNxt, 294),
        (yyChk, 294)].all fun t => t.1.length == t.2 && t.1.all fun v => Nat.blt v 512) = true ∧
      ((List.range 114).all fun q =>
        Nat.blt (look packedBase q) 235 && Nat.blt (look packedDef q) 114) = true ∧
      ((List.range 60).all fun c => Nat.blt (look packedMeta c) 60) = true := by
  decide +kernel

theorem yyAt_packed {t : List Nat} {n : Nat}
    (ht : (t, n) ∈ [(yyAccept, 109), (yyEc, 256), (yyMeta, 60), (yyBase, 114), (yyDef, 114),
      (yyNxt, 294), (yyChk, 294)]) {i : Nat} (hi : i < n) :
    yyAt t i = .ok (look (pack t) i) := by
  have hcheck := List.all_eq_true.1 packed_checked.1 (t, n) ht
  rw [Bool.and_eq_true, List.all_eq_true] at hcheck
  have hsmall : ∀ v ∈ t, v < 512 := fun v hv => Nat.blt_eq.mp (hcheck.2 v hv)
  have hlt : i < t.length := by rwa [eq_of_beq hcheck.1]
  rw [look_pack hsmall, yyAt, List.getElem?_eq_getElem hlt, List.getD_eq_getElem?_getD,
    List.getElem?_eq_getElem hlt]
  rfl

theorem yyAt_yyAccept {q : Nat} (hq : q < 109) : yyAt yyAccept q = .ok (look packedAccept q) :=
  yyAt_packed (by simp only [List.mem_cons, true_or]) hq

theorem yyAt_yyEc {b : Nat} (hb : b < 256) : yyAt yyEc b = .ok (look packedEc b) :=
  yyAt_packed (by simp only [List.mem_cons, true_or, or_true]) hb

theorem yyAt_yyMeta {c : Nat} (hc : c < 60) : yyAt yyMeta c = .ok (look packedMeta c) :=
  yyAt_packed (by simp only [List.mem_cons, true_or, or_true]) hc

theorem yyAt_yyBase {q : Nat} (hq : q < 114) : yyAt yyBase q = .ok (look packedBase q) :=
  yyAt_packed (by simp only [List.mem_cons, true_or, or_true]) hq

theorem yyAt_yyDef {q : Nat} (hq : q < 114) : yyAt yyDef q = .ok (look packedDef q) :=
  yyAt_packed (by simp only [List.mem_cons, true_or, or_true]) hq

theorem yyAt_yyNxt {i : Nat} (hi : i < 294) : yyAt yyNxt i = .ok (look packedNxt i) :=
  yyAt_packed (by simp only [List.mem_cons, true_or, or_true]) hi

theorem yyAt_yyChk {i : Nat} (hi : i < 294) : yyAt yyChk i = .ok (look packedChk i) :=
  yyAt_packed (by simp only [List.mem_cons, true_or, or_true]) hi

-- From here on the packed tables are read by the kernel alone.
attribute [irreducible] packedAccept packedEc packedMeta packedBase packedDef packedNxt packedChk

theorem base_lt {q : Nat} (hq : q < 114) : look packedBase q < 235 := by
  have h := List.all_eq_true.1 packed_checked.2.1 q (List.mem_range.2 hq)
  rw [Bool.and_eq_true] at h
  exact Nat.blt_eq.mp h.1

theorem def_lt {q : Nat} (hq : q < 114) : look packedDef q < 114 := by
  have h := List.all_eq_true.1 packed_checked.2.1 q (List.mem_range.2 hq)
  rw [Bool.and_eq_true] at h
  exact Nat.blt_eq.mp h.2

theorem meta_lt {c : Nat} (hc : c < 60) : look packedMeta c < 60 :=
  Nat.blt_eq.mp (List.all_eq_true.1 packed_checked.2.2 c (List.mem_range.2 hc))

/-- The loop ends where the packed one does, after as many rounds or fewer. -/
theorem yyFollow_of_packedNext {fuel fuel' q c q' : Nat} (hfuel : fuel ≤ fuel') (hq : q < 114)
    (hc : c < 60) (h : packedNext fuel q c = some q') :
    (yyFollow fuel' q c >>= fun r => do
      let base ← yyAt yyBase r.1
      yyAt yyNxt (base + r.2)) = .ok q' := by
  induction fuel generalizing fuel' q c with
  | zero => cases h
  | succ fuel ih =>
      obtain ⟨fuel', rfl⟩ : ∃ n, fuel' = n + 1 := ⟨fuel' - 1, by omega⟩
      have hbase := base_lt hq
      rw [packedNext] at h
      simp only [yyFollow, yyAt_yyBase hq, ok_bind,
        yyAt_yyChk (by omega : look packedBase q + c < 294)]
      cases hchk : Nat.beq (look packedChk (look packedBase q + c)) q with
      | true =>
          have hsame : look packedChk (look packedBase q + c) = q := Nat.eq_of_beq_eq_true hchk
          rw [hchk] at h
          rw [if_neg (by simpa using hsame), ok_bind, yyAt_yyBase hq, ok_bind,
            yyAt_yyNxt (by omega)]
          exact congrArg Except.ok (Option.some.inj h)
      | false =>
          have hother : look packedChk (look packedBase q + c) ≠ q := Nat.ne_of_beq_eq_false hchk
          rw [hchk, cond_false] at h
          rw [if_pos hother]
          simp only [yyAt_yyDef hq, ok_bind]
          cases hle : Nat.ble 109 (look packedDef q) with
          | true =>
              rw [hle, cond_true] at h
              rw [if_pos (Nat.le_of_ble_eq_true hle), yyAt_yyMeta hc, ok_bind]
              exact ih (by omega) (def_lt hq) (meta_lt hc) h
          | false =>
              rw [hle, cond_false] at h
              have hlt : ¬109 ≤ look packedDef q := by
                intro hge
                rw [Nat.ble_eq_true_of_le hge] at hle
                cases hle
              rw [if_neg hlt]
              exact ih (by omega) (def_lt hq) hc h

/-! ## Transitions -/

/-- The state behind a character of class `c`. -/
def yyDelta (q c : Nat) : Nat :=
  (packedNext 3 q c).getD 0

/-- The states that a token goes through: all but the one at the end of the buffer and two that are
never reached. -/
def liveState (q : Nat) : Bool :=
  Nat.beq q 1 || Nat.ble 4 q && Nat.ble q 108

def allLive (check : Nat → Bool) : Bool :=
  (List.range 109).all fun q => !liveState q || check q

/-- The classes of characters; `0` is the class of the end of the buffer. -/
def allClasses (check : Nat → Bool) : Bool :=
  (List.range 59).all fun c => check (c + 1)

/-- A character leads to a live state, and from a state that the loop stops at to no token. -/
def classCheck (q c : Nat) : Bool :=
  match packedNext 3 q c with
  | some q' => liveState q' && (!Nat.beq (look packedBase q) 234 || Nat.beq q' 108)
  | none => false

/-! ## Token rules -/

/-- The class of a character in a token; a NUL is taken as in `yy_get_previous_state`. -/
def charClass (b : UInt8) : Nat :=
  if b = 0 then 1 else look packedEc b.toNat

/-- The rules, and behind them the rule that takes any single character. -/
def lexPatternsDefault : List (Pattern UInt8) :=
  lexPatterns ++ [.one fun _ => true]

/-- A character of each class. -/
def classReps : List (Nat × UInt8) :=
  (List.range 59).map fun c => (c + 1, UInt8.ofNat (yyEc.idxOf (c + 1)))

/-- `SeesClasses`, checked at every byte. -/
def letterCheck (p : UInt8 → Bool) : Bool :=
  (List.range 256).all fun i =>
    (ClassPattern.mask p classReps).testBit (charClass (UInt8.ofNat i)) == p (UInt8.ofNat i)

abbrev SeesCharClasses : (UInt8 → Bool) → Prop :=
  ClassPattern.SeesClasses charClass classReps

theorem seesCharClasses_of_check {p : UInt8 → Bool} (h : letterCheck p = true) :
    SeesCharClasses p := by
  intro b
  have hb := List.all_eq_true.1 h b.toNat (List.mem_range.2 b.toNat_lt)
  rw [UInt8.ofNat_toNat] at hb
  exact eq_of_beq hb

/-- The characters of the keywords. -/
def keywordBytes : List UInt8 :=
  ascii "ABCDEFHIKLMNORSTUWXY_$.=!><(),"

/-- The letters of the rules see classes only. -/
theorem letters_checked :
    (keywordBytes.all fun a => letterCheck (sameLetter a)) = true ∧
      letterCheck isDigit = true ∧ letterCheck identStart = true ∧ letterCheck identRest = true ∧
      letterCheck (fun b => decide (b = 45 ∨ b = 43)) = true ∧
      ([34, 39].all fun quote : UInt8 =>
        letterCheck (fun b => decide (b = quote)) &&
          letterCheck fun b => decide (b ≠ quote)) = true ∧
      letterCheck (fun b => decide (b = 92)) = true ∧
      letterCheck (fun b => decide (b ≠ 10)) = true ∧
      letterCheck (fun b => decide (b = 32 ∨ b = 9 ∨ b = 10)) = true ∧
      letterCheck (fun _ => true) = true := by
  decide +kernel

theorem allLetters_keyword {s : String}
    (h : (ascii s).all (fun a => keywordBytes.contains a) = true) :
    ClassPattern.AllLetters SeesCharClasses (keyword s) := by
  apply ClassPattern.allLetters_word
  intro a ha
  have hmem : a ∈ keywordBytes := List.contains_iff_mem.1 (List.all_eq_true.1 h a ha)
  exact seesCharClasses_of_check (List.all_eq_true.1 letters_checked.1 a hmem)

theorem allLetters_quoted {quote : UInt8} (hquote : quote ∈ [34, 39]) :
    ClassPattern.AllLetters SeesCharClasses (quoted quote) := by
  obtain ⟨_, _, _, _, _, hquotes, hescape, hline, _⟩ := letters_checked
  have hcheck := List.all_eq_true.1 hquotes quote hquote
  rw [Bool.and_eq_true] at hcheck
  have hthe := seesCharClasses_of_check hcheck.1
  have hother := seesCharClasses_of_check hcheck.2
  exact ⟨hthe, ⟨⟨seesCharClasses_of_check hescape, seesCharClasses_of_check hline⟩, hother⟩, hthe⟩

theorem allLetters_lexPatternsDefault {P : Pattern UInt8} (hP : P ∈ lexPatternsDefault) :
    ClassPattern.AllLetters SeesCharClasses P := by
  obtain ⟨_, hdigit, hstart, hrest, hsign, _, _, _, hspace, hany⟩ := letters_checked
  have hdigits : ClassPattern.AllLetters SeesCharClasses digitClass :=
    seesCharClasses_of_check hdigit
  have hsigns : ClassPattern.AllLetters SeesCharClasses signClass :=
    ⟨True.intro, seesCharClasses_of_check hsign⟩
  have hspaces := seesCharClasses_of_check hspace
  revert P
  simp only [lexPatternsDefault, lexPatterns, lexRules, List.map_cons, List.map_nil,
    List.cons_append, List.nil_append, List.forall_mem_cons, keywordRule]
  refine ⟨?_, ?_, ?_, ?_, ?_, ⟨?_, hdigits⟩, ⟨hsigns, hdigits, ?_, hdigits, hdigits⟩,
    ⟨hsigns, hdigits, hdigits⟩,
    ⟨allLetters_quoted (by decide), allLetters_quoted (by decide)⟩,
    ?_, ?_, ?_, ?_, ?_, ?_, ?_, ?_, ?_, ?_, ?_, ?_, ?_, ?_, ?_, ?_, ?_, ?_, ?_, ?_, ?_,
    ⟨seesCharClasses_of_check hstart, seesCharClasses_of_check hrest⟩, ⟨hspaces, hspaces⟩,
    seesCharClasses_of_check hany, fun _ h => absurd h List.not_mem_nil⟩
  -- What is left are the keywords.
  all_goals exact allLetters_keyword (by decide)

/-- The rules over classes, with their numbers. -/
def startItems : List Item :=
  (List.range lexPatternsDefault.length).zip
    (lexPatternsDefault.map (ClassPattern.ofPattern classReps))

/-- For each state the shortest text that leads to it; there is none for `0`, `2` and `3`. -/
def stateTexts : List String :=
  ["", "", "", "", "?", " ", "!", "\"", "$", "'", "(", ")", "+", ",", ".", "0", "<", "=", ">",
   "A", "E", "D", "F", "H", "I", "L", "M", "N", "O", "S", "T", "U", "  ", "!=", "\"?", "\"\"",
   "\"\\", "$0", "'?", "'\\", "0.", "00", ".0", "<=", ">=", "AA", "AN", "DA", "FA", "HO", "IN",
   "IS", "LI", "MI", "NO", "NU", "OR", "SE", "TI", "TO", "TR", "UN", "\"\\?", "\"\\\"",
   "\"\\\\", "'\\?", "'\\'", "'\\\\", "AND", "DAY", "FAL", "HOU", "LIK", "MIN", "NOW", "NUL",
   "SEC", "TIM", "TOD", "TRU", "UNI", "DAYS", "FALS", "HOUR", "LIKE", "MINU", "NULL", "SECO",
   "TIME", "TODA", "TRUE", "UNIX", "FALSE", "HOURS", "MINUT", "SECON", "TIME_", "TODAY",
   "MINUTE", "SECOND", "TIME_A", "TIME_S", "MINUTES", "SECONDS", "TIME_AD", "TIME_SU",
   "TIME_ADD", "TIME_SUB"]

/-- What is left of the rules after one character. -/
def firstRests : List (List Item) :=
  (List.range 60).map fun c => restsAfter c startItems

/-- What is left of the rules after a text. -/
def restsBehind : List UInt8 → List Item
  | [] => startItems
  | b :: bs =>
      bs.foldl (fun l b => restsAfter (charClass b) l) ((firstRests[charClass b]?).getD [])

/-- What is left of the rules in each state. -/
def restsTable : List (List Item) :=
  stateTexts.map fun s => restsBehind (ascii s)

def restsOf (q : Nat) : List Item :=
  (restsTable[q]?).getD []

def sameItems (l l' : List Item) : Bool :=
  l.all (fun x => l'.contains x) && l'.all fun x => l.contains x

/-- A character leads from the rests of a state to the rests of the next state. -/
def restsCheck (q : Nat) : Bool :=
  allClasses fun c =>
    bif (firstClasses (restsOf q)).testBit c then
      sameItems (restsOf (yyDelta q c)) (restsAfter c (restsOf q))
    else
      Nat.beq (yyDelta q c) yyJam

/-- A state accepts the first rule that has matched. -/
def acceptCheck (q : Nat) : Bool :=
  match firstDone (restsOf q) with
  | some i => Nat.beq (look packedAccept q) (i + 1)
  | none => Nat.beq (look packedAccept q) 0

/-- `packedNext` leads from `q` to `q'`. -/
def leadsTo (q c q' : Nat) : Bool :=
  match packedNext 3 q c with
  | some t => Nat.beq t q'
  | none => false

/-- What the end of the buffer does, and which rules are accepted. -/
def endCheck (q : Nat) : Bool :=
  leadsTo q 0 3 && Nat.blt (look packedAccept q) 34

/-- All that the scanner relies on: the live states, the state behind the end of the buffer, where
no token goes on, the state where none goes on, and the first characters, which are all accepted. -/
theorem tables_checked :
    allLive (fun q =>
        allClasses (classCheck q) && restsCheck q && acceptCheck q && endCheck q) = true ∧
      ((List.range 60).all fun c => leadsTo 3 c yyJam) = true ∧
      allClasses (fun c => !Nat.beq (look packedAccept (yyDelta 1 c)) 0) = true ∧
      ((List.range 256).all fun i =>
        Nat.ble 1 (charClass (UInt8.ofNat i)) && Nat.blt (charClass (UInt8.ofNat i)) 60 &&
          Nat.blt (look packedEc i) 60) = true ∧
      restsOf yyJam = [] ∧ look packedAccept yyJam = 0 ∧ look packedBase yyJam = yyJamBase ∧
      look packedAccept 3 = yyEndOfBuffer ∧ look packedBase 3 ≠ yyJamBase ∧
      look packedEc 0 = 0 := by
  decide +kernel

/-! ## The table as an automaton -/

/-- Where a character leads, and the rule that has matched in a state. -/
def lexAutomaton : Automaton UInt8 where
  step q b := yyDelta q (charClass b)
  accept q := if look packedAccept q = 0 then none else some (look packedAccept q - 1)

theorem lexAutomaton_step (q : Nat) (b : UInt8) :
    lexAutomaton.step q b = yyDelta q (charClass b) := rfl

theorem lexAutomaton_accept (q : Nat) :
    lexAutomaton.accept q =
      if look packedAccept q = 0 then none else some (look packedAccept q - 1) := rfl

theorem liveState_iff {q : Nat} : liveState q = true ↔ q = 1 ∨ 4 ≤ q ∧ q ≤ 108 := by
  simp [liveState]

theorem lt_of_liveState {q : Nat} (hq : liveState q = true) : q < 109 := by
  rcases liveState_iff.1 hq with rfl | hq
  · decide
  · omega

theorem state_checked {q : Nat} (hq : liveState q = true) :
    allClasses (classCheck q) = true ∧ restsCheck q = true ∧ acceptCheck q = true ∧
      endCheck q = true := by
  have h := List.all_eq_true.1 tables_checked.1 q (List.mem_range.2 (lt_of_liveState hq))
  simpa only [hq, Bool.not_true, Bool.false_or, Bool.and_eq_true, and_assoc] using h

theorem of_allClasses {check : Nat → Bool} (h : allClasses check = true) {c : Nat}
    (hc : 1 ≤ c ∧ c < 60) : check c = true := by
  obtain ⟨i, rfl⟩ : ∃ i, c = i + 1 := ⟨c - 1, by omega⟩
  exact List.all_eq_true.1 h i (List.mem_range.2 (by omega))

theorem class_bounds (b : UInt8) :
    (1 ≤ charClass b ∧ charClass b < 60) ∧ look packedEc b.toNat < 60 := by
  have hb := List.all_eq_true.1 tables_checked.2.2.2.1 b.toNat (List.mem_range.2 b.toNat_lt)
  simp only [UInt8.ofNat_toNat, Bool.and_eq_true] at hb
  exact ⟨⟨Nat.le_of_ble_eq_true hb.1.1, Nat.blt_eq.mp hb.1.2⟩, Nat.blt_eq.mp hb.2⟩

theorem sameItems_iff {l l' : List Item} (h : sameItems l l' = true) (x : Item) :
    x ∈ l ↔ x ∈ l' := by
  rw [sameItems, Bool.and_eq_true, List.all_eq_true, List.all_eq_true] at h
  exact ⟨fun hx => by simpa using h.1 x hx, fun hx => by simpa using h.2 x hx⟩

/-- A character leads from a live state to a live state, and to no token from a state that the loop
stops at. -/
theorem class_step {q : Nat} (hq : liveState q = true) (b : UInt8) :
    packedNext 3 q (charClass b) = some (lexAutomaton.step q b) ∧
      liveState (lexAutomaton.step q b) = true ∧
      (look packedBase q = yyJamBase → lexAutomaton.step q b = yyJam) := by
  have hclass := of_allClasses (state_checked hq).1 (class_bounds b).1
  unfold classCheck at hclass
  simp only [lexAutomaton_step, yyDelta]
  cases hnext : packedNext 3 q (charClass b) with
  | none =>
      simp only [hnext] at hclass
      cases hclass
  | some q' =>
      simp only [hnext, Bool.and_eq_true, Bool.or_eq_true, Bool.not_eq_true'] at hclass
      refine ⟨rfl, hclass.1, ?_⟩
      intro hbase
      rcases hclass.2 with hother | hjam
      · exact absurd hbase (Nat.ne_of_beq_eq_false hother)
      · exact Nat.eq_of_beq_eq_true hjam

/-- The tables follow what is left of the rules. -/
theorem lexAutomaton_follows :
    lexAutomaton.Follows charClass (fun q => liveState q = true) restsOf := by
  refine ⟨fun q hq b => (class_step hq b).2.1, ?_, ?_⟩
  · intro q hq b x
    have hrest := of_allClasses (state_checked hq).2.1 (class_bounds b).1
    rw [lexAutomaton_step]
    cases hfirst : (firstClasses (restsOf q)).testBit (charClass b) with
    | true =>
        simp only [hfirst, cond_true] at hrest
        exact sameItems_iff hrest x
    | false =>
        simp only [hfirst, cond_false] at hrest
        have hjam : restsOf yyJam = [] := tables_checked.2.2.2.2.1
        rw [Nat.eq_of_beq_eq_true hrest, hjam, restsAfter_eq_nil hfirst]
  · intro q hq
    have haccept := (state_checked hq).2.2.1
    unfold acceptCheck at haccept
    rw [lexAutomaton_accept]
    cases hdone : firstDone (restsOf q) with
    | none =>
        simp only [hdone] at haccept
        rw [if_pos (Nat.eq_of_beq_eq_true haccept)]
    | some i =>
        simp only [hdone] at haccept
        rw [Nat.eq_of_beq_eq_true haccept, if_neg (Nat.succ_ne_zero i), Nat.add_sub_cancel]

/-- The longest match by the tables is the longest match by the rules. -/
theorem lexAutomaton_longest (w : List UInt8) :
    lexAutomaton.longest 1 w = longest lexPatternsDefault w := by
  apply Automaton.longest_eq lexAutomaton_follows w (by decide : liveState 1 = true)
  have hstart : restsOf 1 = startItems := rfl
  rw [hstart]
  exact covers_start fun P hP => allLetters_lexPatternsDefault hP

/-! ## What the scanner relies on -/

theorem yyNextState_of_packedNext {q c q' : Nat} (hq : q < 109) (hc : c < 60)
    (h : packedNext 3 q c = some q') : yyNextState q c = .ok q' :=
  yyFollow_of_packedNext (by decide) (by omega) hc h

theorem yyNextState_of_leadsTo {q c q' : Nat} (hq : q < 109) (hc : c < 60)
    (h : leadsTo q c q' = true) : yyNextState q c = .ok q' := by
  unfold leadsTo at h
  cases hnext : packedNext 3 q c with
  | none =>
      simp only [hnext] at h
      cases h
  | some t =>
      simp only [hnext] at h
      obtain rfl := Nat.eq_of_beq_eq_true h
      exact yyNextState_of_packedNext hq hc hnext

theorem yyNextState_char {q : Nat} (hq : liveState q = true) (b : UInt8) :
    yyNextState q (charClass b) = .ok (lexAutomaton.step q b) :=
  yyNextState_of_packedNext (lt_of_liveState hq) (class_bounds b).1.2 (class_step hq b).1

/-- The end of the buffer leads to a state of its own. -/
theorem yyNextState_end {q : Nat} (hq : liveState q = true) : yyNextState q 0 = .ok 3 := by
  have hend := (state_checked hq).2.2.2
  unfold endCheck at hend
  simp only [Bool.and_eq_true] at hend
  exact yyNextState_of_leadsTo (lt_of_liveState hq) (by decide) hend.1

/-- No token goes on behind the end of the buffer. -/
theorem yyNextState_behindEnd (b : UInt8) : yyNextState 3 (look packedEc b.toNat) = .ok yyJam :=
  yyNextState_of_leadsTo (by decide) (class_bounds b).2
    (List.all_eq_true.1 tables_checked.2.1 _ (List.mem_range.2 (class_bounds b).2))

/-- Only the rules of the scanner are accepted. -/
theorem accept_lt {q : Nat} (hq : liveState q = true) : look packedAccept q < 34 := by
  have hend := (state_checked hq).2.2.2
  unfold endCheck at hend
  simp only [Bool.and_eq_true] at hend
  exact Nat.blt_eq.mp hend.2

/-- Every single character is accepted, by the default rule if by no other. -/
theorem accept_first (b : UInt8) : look packedAccept (lexAutomaton.step 1 b) ≠ 0 := by
  have hb := of_allClasses tables_checked.2.2.1 (class_bounds b).1
  rw [lexAutomaton_step]
  exact Nat.ne_of_beq_eq_false (by simpa using hb)

theorem accept_yyJam : look packedAccept yyJam = 0 :=
  tables_checked.2.2.2.2.2.1

theorem base_yyJam : look packedBase yyJam = yyJamBase :=
  tables_checked.2.2.2.2.2.2.1

theorem accept_behindEnd : look packedAccept 3 = yyEndOfBuffer :=
  tables_checked.2.2.2.2.2.2.2.1

theorem base_behindEnd : look packedBase 3 ≠ yyJamBase :=
  tables_checked.2.2.2.2.2.2.2.2.1

theorem ec_nul : look packedEc 0 = 0 :=
  tables_checked.2.2.2.2.2.2.2.2.2

theorem charClass_of_ne {b : UInt8} (hb : b ≠ 0) : charClass b = look packedEc b.toNat := by
  rw [charClass, if_neg hb]

end Secondary
