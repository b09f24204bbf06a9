import Secondary.Parser.DriverSpec

/-!
# Parser.Constants — numbers and times of a WHERE clause

A constant is an integer literal, or a time that is built from the clock and from literals.  The
scanner converts literals with `atoi`, and a duration is an `int`: both keep 32 bits of a number.
Everything else is done with 64 bits.  So the value of a constant is the exact one, less what the
narrowing takes off its literals and durations (`lost`), modulo 2^64.
-/

namespace Secondary

open Lib

/-! ## Constants -/

inductive DurationUnit where
  | days
  | hours
  | minutes
  | seconds
  deriving DecidableEq

namespace DurationUnit

def terminal : DurationUnit → Terminal
  | days => .DAYS
  | hours => .HOURS
  | minutes => .MINUTES
  | seconds => .SECONDS

/-- The factor of the unit in its action. -/
def factor : DurationUnit → Int64
  | days => 86400
  | hours => 3600
  | minutes => 60
  | seconds => 1

end DurationUnit

/-- `timestamp` -/
inductive TimeExpr where
  | now
  | today
  | time (n : Int)
  | unix (n : Int)
  | add (e : TimeExpr) (unit : DurationUnit) (n : Int)
  | sub (e : TimeExpr) (unit : DurationUnit) (n : Int)

/-- The `value` of a number or a time. -/
inductive Constant where
  | literal (n : Int)
  | time (e : TimeExpr)

/-- The integers of 64 bits. -/
def InInt64 (n : Int) : Prop :=
  longMin ≤ n ∧ n ≤ longMax

instance : DecidablePred InInt64 := fun n =>
  inferInstanceAs (Decidable (longMin ≤ n ∧ n ≤ longMax))

/-- What is lost of a number that keeps 32 bits. -/
def lost32 (n : Int) : Int :=
  n - n.bmod (2 ^ 32)

/-! ## Exact values -/

/-- The exact length of a duration, in seconds. -/
def DurationUnit.exact (unit : DurationUnit) (n : Int) : Int :=
  n * unit.factor.toInt

namespace TimeExpr

variable (clock : Int64)

/-- The exact value when the clock shows `clock`. -/
def exact : TimeExpr → Int
  | now => clock.toInt
  | today => clock.toInt - clock.toInt.tmod 86400
  | time n => n
  | unix n => n
  | add e unit n => e.exact + unit.exact n
  | sub e unit n => e.exact - unit.exact n

/-- The exact value of every part has 64 bits. -/
def Fits : TimeExpr → Prop
  | now => True
  | today => True
  | time n => InInt64 n
  | unix n => InInt64 n
  | add e unit n => e.Fits ∧ InInt64 n ∧ InInt64 (unit.exact n) ∧ InInt64 ((add e unit n).exact clock)
  | sub e unit n => e.Fits ∧ InInt64 n ∧ InInt64 (unit.exact n) ∧ InInt64 ((sub e unit n).exact clock)

/-- What narrowing takes off the literals and durations, with the signs that they have. -/
def lost : TimeExpr → Int
  | now => 0
  | today => 0
  | time n => lost32 n
  | unix n => lost32 n
  | add e unit n => e.lost + lost32 (unit.exact n)
  | sub e unit n => e.lost - lost32 (unit.exact n)

end TimeExpr

namespace Constant

variable (clock : Int64)

def exact : Constant → Int
  | literal n => n
  | time e => e.exact clock

def Fits : Constant → Prop
  | literal n => InInt64 n
  | time e => e.Fits clock

def lost : Constant → Int
  | literal n => lost32 n
  | time e => e.lost

/-- The type of the `SIValue`. -/
def type : Constant → SIType
  | literal _ => .int64
  | time _ => .time

end Constant

/-! ## Values of the actions -/

/-- `atoi` of the text of the number; `strtoll` stops at the ends of the range. -/
def atoiOf (n : Int) : Int64 :=
  (Int32.ofInt (max longMin (min n longMax))).toInt64

/-- The actions of `duration`. -/
def DurationUnit.value (unit : DurationUnit) (n : Int) : Int32 :=
  (atoiOf n * unit.factor).toInt32

theorem DurationUnit.value_seconds (n : Int) : seconds.value n = (atoiOf n).toInt32 := by
  rw [value, factor, Int64.mul_one]

/-- The actions of `timestamp`. -/
def TimeExpr.value (clock : Int64) : TimeExpr → Int64
  | now => clock
  | today => Secondary.today clock
  | time n => atoiOf n
  | unix n => atoiOf n
  | add e unit n => e.value clock + (unit.value n).toInt64
  | sub e unit n => e.value clock - (unit.value n).toInt64

/-- The actions of `value`. -/
def Constant.value (clock : Int64) : Constant → SIValue
  | literal n => .int64 (atoiOf n)
  | time e => .time (e.value clock)

section Values

variable {clock : Int64} {n : Int}

theorem atoiOf_toInt (hn : InInt64 n) : (atoiOf n).toInt = n.bmod (2 ^ 32) := by
  have hclamp : max longMin (min n longMax) = n := by
    rw [min_eq_left hn.2, max_eq_right hn.1]
  rw [atoiOf, hclamp, Int32.toInt_toInt64, Int32.toInt_ofInt]
  rfl

/-- A duration keeps 32 bits of its exact length. -/
theorem DurationUnit.value_toInt (unit : DurationUnit) (hn : InInt64 n) :
    (unit.value n).toInt64.toInt = (unit.exact n).bmod (2 ^ 32) := by
  have hdvd : 2 ^ 32 ∣ 2 ^ 64 := by decide
  calc (unit.value n).toInt64.toInt
      = (((atoiOf n).toInt * unit.factor.toInt).bmod (2 ^ 64)).bmod (2 ^ 32) := by
        rw [Int32.toInt_toInt64, DurationUnit.value, Int64.toInt_toInt32, Int64.toInt_mul]
    _ = (n.bmod (2 ^ 32) * unit.factor.toInt).bmod (2 ^ 32) := by
        rw [Int.bmod_bmod_of_dvd hdvd, atoiOf_toInt hn]
    _ = (unit.exact n).bmod (2 ^ 32) := by
        rw [Int.bmod_mul_bmod, DurationUnit.exact]

/-- The remainder is between zero and the clock. -/
theorem today_toInt (clock : Int64) :
    (today clock).toInt = clock.toInt - clock.toInt.tmod 86400 := by
  have hlow := clock.le_toInt
  have hhigh := clock.toInt_lt
  rw [today, Int64.toInt_sub, Int64.toInt_mod]
  have hday : (86400 : Int64).toInt = 86400 := rfl
  rw [hday]
  have hbounds : (-2 ^ 63 : Int) ≤ clock.toInt - clock.toInt.tmod 86400 ∧
      clock.toInt - clock.toInt.tmod 86400 < 2 ^ 63 := by
    rcases Int.le_total 0 clock.toInt with h | h
    · rw [Int.tmod_eq_emod_of_nonneg h]
      omega
    · have hneg : clock.toInt.tmod 86400 = -((-clock.toInt) % 86400) := by
        rw [← Int.tmod_eq_emod_of_nonneg (by omega), Int.neg_tmod, Int.neg_neg]
      rw [hneg]
      omega
  exact Int.bmod_eq_of_le hbounds.1 hbounds.2

/-- Values that are exact up to a loss are added so. -/
theorem bmod_add_lost {x d e l : Int} (hx : x = (e - l).bmod (2 ^ 64)) :
    (x + d.bmod (2 ^ 32)).bmod (2 ^ 64) = (e + d - (l + lost32 d)).bmod (2 ^ 64) := by
  rw [hx, Int.bmod_add_bmod, lost32]
  congr 1
  omega

theorem bmod_sub_lost {x d e l : Int} (hx : x = (e - l).bmod (2 ^ 64)) :
    (x - d.bmod (2 ^ 32)).bmod (2 ^ 64) = (e - d - (l - lost32 d)).bmod (2 ^ 64) := by
  rw [hx, Int.bmod_sub_bmod, lost32]
  congr 1
  omega

/-- The value of a time is the exact one less what is lost, modulo 2^64. -/
theorem TimeExpr.value_toInt {e : TimeExpr} (h : e.Fits clock) :
    (e.value clock).toInt = (e.exact clock - e.lost).bmod (2 ^ 64) := by
  have hliteral : ∀ {n}, InInt64 n → (atoiOf n).toInt = (n - lost32 n).bmod (2 ^ 64) := by
    intro n hn
    have hself : n - lost32 n = (atoiOf n).toInt := by
      rw [atoiOf_toInt hn, lost32]
      omega
    rw [hself]
    exact (Int64.toInt_bmod _).symm
  induction e with
  | now =>
      rw [value, exact, lost, Int.sub_zero]
      exact (Int64.toInt_bmod clock).symm
  | today =>
      rw [exact, lost, Int.sub_zero, ← today_toInt]
      exact (Int64.toInt_bmod _).symm
  | time n => exact hliteral h
  | unix n => exact hliteral h
  | add e unit n ih =>
      obtain ⟨he, hn, _, _⟩ := h
      rw [value, Int64.toInt_add, unit.value_toInt hn]
      exact bmod_add_lost (ih he)
  | sub e unit n ih =>
      obtain ⟨he, hn, _, _⟩ := h
      rw [value, Int64.toInt_sub, unit.value_toInt hn]
      exact bmod_sub_lost (ih he)

/-- A number of 64 bits is left alone modulo 2^64 by the multiples of 2^64 only. -/
theorem bmod_sub_eq_iff {e l : Int} (he : InInt64 e) :
    (e - l).bmod (2 ^ 64) = e ↔ (2 ^ 64 : Int) ∣ l := by
  obtain ⟨hmin, hmax⟩ := he
  rw [longMin] at hmin
  rw [longMax] at hmax
  rw [Int.bmod_def]
  split <;> omega

theorem TimeExpr.exact_inInt64 {e : TimeExpr} (h : e.Fits clock) : InInt64 (e.exact clock) := by
  cases e with
  | now => exact int64_bounds clock
  | today =>
      rw [exact, ← today_toInt]
      exact int64_bounds _
  | time n => exact h
  | unix n => exact h
  | add e unit n => exact h.2.2.2
  | sub e unit n => exact h.2.2.2

/-- The value of a constant is exact if and only if the losses cancel modulo 2^64. -/
theorem Constant.value_exact_iff {k : Constant} (h : k.Fits clock) :
    (k.value clock).integer = some (k.exact clock) ↔ (2 ^ 64 : Int) ∣ k.lost := by
  cases k with
  | literal n =>
      have hvalue : (atoiOf n).toInt = (n - lost32 n).bmod (2 ^ 64) :=
        @TimeExpr.value_toInt clock (.unix n) h
      rw [← bmod_sub_eq_iff h, value, SIValue.integer, Option.some.injEq, hvalue]
      rfl
  | time e =>
      rw [← bmod_sub_eq_iff (TimeExpr.exact_inInt64 h), value, SIValue.integer, Option.some.injEq,
        TimeExpr.value_toInt h]
      rfl

end Values

/-! ## Tokens of constants -/

/-- The token is the integer literal `n`. -/
def SaysInteger (l : Lexeme) (n : Int) : Prop :=
  l.major = .INTEGER ∧ IntegerText l.yytext.bytes n

/-- `( n )` behind the word of a rule. -/
inductive WritesCall (a : Terminal) (n : Int) : List Lexeme → Prop where
  | mk {w lp l rp : Lexeme} (hw : w.major = a) (hlp : lp.major = .LP) (hl : SaysInteger l n)
      (hrp : rp.major = .RP) : WritesCall a n [w, lp, l, rp]

/-- `( timestamp , duration )` behind the word of a rule. -/
inductive WritesSum (a : Terminal) (P Q : List Lexeme → Prop) : List Lexeme → Prop where
  | mk {w lp comma rp : Lexeme} {ts us : List Lexeme} (hw : w.major = a) (hlp : lp.major = .LP)
      (hts : P ts) (hcomma : comma.major = .COMMA) (hus : Q us) (hrp : rp.major = .RP) :
      WritesSum a P Q (w :: lp :: (ts ++ comma :: (us ++ [rp])))

/-- The tokens of a time. -/
def WritesTime : TimeExpr → List Lexeme → Prop
  | .now, ts => ∃ l, ts = [l] ∧ l.major = .NOW
  | .today, ts => ∃ l, ts = [l] ∧ l.major = .TODAY
  | .time n, ts => WritesCall .TIME n ts
  | .unix n, ts => WritesCall .UNIXTIME n ts
  | .add e unit n, ts => WritesSum .TIME_ADD (WritesTime e) (WritesCall unit.terminal n) ts
  | .sub e unit n, ts => WritesSum .TIME_SUB (WritesTime e) (WritesCall unit.terminal n) ts

/-- The tokens of a constant. -/
def Writes : Constant → List Lexeme → Prop
  | .literal n, ts => ∃ l, ts = [l] ∧ SaysInteger l n
  | .time e, ts => WritesTime e ts

theorem SaysInteger.unique {l : Lexeme} {n m : Int} (h : SaysInteger l n) (h' : SaysInteger l m) :
    n = m := by
  have hlead : ∀ {i}, SaysInteger l i → LeadingInteger l.yytext.bytes i [] :=
    fun hi => ⟨_, by simp, hi.2, by simp⟩
  exact ((hlead h).unique (hlead h')).1

theorem WritesCall.unique {a b : Terminal} {n m : Int} {ts us r s : List Lexeme}
    (h : WritesCall a n ts) (h' : WritesCall b m us) (heq : ts ++ r = us ++ s) :
    a = b ∧ n = m ∧ ts = us ∧ r = s := by
  cases h with
  | mk hw _ hl _ =>
      cases h' with
      | mk hw' _ hl' _ =>
          simp only [List.cons_append, List.nil_append, List.cons.injEq] at heq
          obtain ⟨rfl, rfl, rfl, rfl, rfl⟩ := heq
          exact ⟨hw.symm.trans hw', hl.unique hl', rfl, rfl⟩

theorem DurationUnit.terminal_inj {u v : DurationUnit} (h : u.terminal = v.terminal) : u = v := by
  cases u <;> cases v <;> first | rfl | cases h

/-- The word that a time begins with. -/
def TimeExpr.word : TimeExpr → Terminal
  | now => .NOW
  | today => .TODAY
  | time _ => .TIME
  | unix _ => .UNIXTIME
  | add _ _ _ => .TIME_ADD
  | sub _ _ _ => .TIME_SUB

theorem WritesTime.exists_word {e : TimeExpr} {ts : List Lexeme} (h : WritesTime e ts) :
    ∃ w us, ts = w :: us ∧ w.major = e.word := by
  cases e with
  | now =>
      obtain ⟨l, rfl, hl⟩ := h
      exact ⟨l, [], rfl, hl⟩
  | today =>
      obtain ⟨l, rfl, hl⟩ := h
      exact ⟨l, [], rfl, hl⟩
  | time n =>
      cases h with
      | mk hw _ _ _ => exact ⟨_, _, rfl, hw⟩
  | unix n =>
      cases h with
      | mk hw _ _ _ => exact ⟨_, _, rfl, hw⟩
  | add e unit n =>
      cases h with
      | mk hw _ _ _ _ _ => exact ⟨_, _, rfl, hw⟩
  | sub e unit n =>
      cases h with
      | mk hw _ _ _ _ _ => exact ⟨_, _, rfl, hw⟩

theorem WritesTime.word_eq {e e' : TimeExpr} {ts us r s : List Lexeme} (h : WritesTime e ts)
    (h' : WritesTime e' us) (heq : ts ++ r = us ++ s) : e.word = e'.word := by
  obtain ⟨w, _, rfl, hw⟩ := h.exists_word
  obtain ⟨w', _, rfl, hw'⟩ := h'.exists_word
  obtain rfl : w = w' := (List.cons.inj heq).1
  exact hw.symm.trans hw'

theorem WritesSum.unique {a b : Terminal} {P P' Q Q' : List Lexeme → Prop} {X Y : Prop}
    {ts us r s : List Lexeme}
    (hP : ∀ {ts us r s}, P ts → P' us → ts ++ r = us ++ s → X ∧ ts = us ∧ r = s)
    (hQ : ∀ {ts us r s}, Q ts → Q' us → ts ++ r = us ++ s → Y ∧ ts = us ∧ r = s)
    (h : WritesSum a P Q ts) (h' : WritesSum b P' Q' us) (heq : ts ++ r = us ++ s) :
    X ∧ Y ∧ ts = us ∧ r = s := by
  cases h with
  | mk _ _ hts _ hus _ =>
      cases h' with
      | mk _ _ hts' _ hus' _ =>
          simp only [List.cons_append, List.append_assoc, List.nil_append, List.cons.injEq] at heq
          obtain ⟨rfl, rfl, htimes⟩ := heq
          obtain ⟨hX, rfl, hrest⟩ := hP hts hts' htimes
          obtain ⟨rfl, hdurations⟩ := List.cons.inj hrest
          obtain ⟨hY, rfl, hend⟩ := hQ hus hus' hdurations
          obtain ⟨rfl, rfl⟩ := List.cons.inj hend
          exact ⟨hX, hY, rfl, rfl⟩

/-- No time begins with another one. -/
theorem WritesTime.unique {e e' : TimeExpr} {ts us r s : List Lexeme} (h : WritesTime e ts)
    (h' : WritesTime e' us) (heq : ts ++ r = us ++ s) : e = e' ∧ ts = us ∧ r = s := by
  have hduration : ∀ {u v : DurationUnit} {n m : Int} {ts us r s : List Lexeme},
      WritesCall u.terminal n ts → WritesCall v.terminal m us → ts ++ r = us ++ s →
        (u = v ∧ n = m) ∧ ts = us ∧ r = s := by
    intro u v n m ts us r s h h' heq
    obtain ⟨hterminal, hn, hts, hr⟩ := h.unique h' heq
    exact ⟨⟨DurationUnit.terminal_inj hterminal, hn⟩, hts, hr⟩
  -- The first words are the same, so both times are built by the same rule.
  have hword := h.word_eq h' heq
  induction e generalizing e' ts us r s with
  | now =>
      cases e' with
      | now =>
          obtain ⟨l, rfl, _⟩ := h
          obtain ⟨l', rfl, _⟩ := h'
          obtain ⟨rfl, rfl⟩ := List.cons.inj heq
          exact ⟨rfl, rfl, rfl⟩
      | _ => cases hword
  | today =>
      cases e' with
      | today =>
          obtain ⟨l, rfl, _⟩ := h
          obtain ⟨l', rfl, _⟩ := h'
          obtain ⟨rfl, rfl⟩ := List.cons.inj heq
          exact ⟨rfl, rfl, rfl⟩
      | _ => cases hword
  | time n =>
      cases e' with
      | time m =>
          obtain ⟨_, rfl, hts, hr⟩ := WritesCall.unique h h' heq
          exact ⟨rfl, hts, hr⟩
      | _ => cases hword
  | unix n =>
      cases e' with
      | unix m =>
          obtain ⟨_, rfl, hts, hr⟩ := WritesCall.unique h h' heq
          exact ⟨rfl, hts, hr⟩
      | _ => cases hword
  | add e unit n ih =>
      cases e' with
      | add e' unit' m =>
          have htime := fun {ts us r s} (h : WritesTime e ts) (h' : WritesTime e' us) heq =>
            ih (r := r) (s := s) h h' heq (h.word_eq h' heq)
          obtain ⟨rfl, ⟨rfl, rfl⟩, hts, hr⟩ := WritesSum.unique htime hduration h h' heq
          exact ⟨rfl, hts, hr⟩
      | _ => cases hword
  | sub e unit n ih =>
      cases e' with
      | sub e' unit' m =>
          have htime := fun {ts us r s} (h : WritesTime e ts) (h' : WritesTime e' us) heq =>
            ih (r := r) (s := s) h h' heq (h.word_eq h' heq)
          obtain ⟨rfl, ⟨rfl, rfl⟩, hts, hr⟩ := WritesSum.unique htime hduration h h' heq
          exact ⟨rfl, hts, hr⟩
      | _ => cases hword

theorem Writes.unique {k k' : Constant} {ts : List Lexeme} (h : Writes k ts) (h' : Writes k' ts) :
    k = k' := by
  cases k with
  | literal n =>
      obtain ⟨l, rfl, hl⟩ := h
      cases k' with
      | literal m =>
          obtain ⟨l', heq, hl'⟩ := h'
          obtain rfl : l = l' := List.singleton_inj.1 heq
          rw [hl.unique hl']
      | time e =>
          -- No time begins with a number.
          obtain ⟨w, us, heq, hw⟩ := WritesTime.exists_word h'
          obtain rfl : l = w := (List.cons.inj heq).1
          rw [hl.1] at hw
          cases e <;> cases hw
  | time e =>
      cases k' with
      | literal m =>
          obtain ⟨l, rfl, hl⟩ := h'
          obtain ⟨w, us, heq, hw⟩ := WritesTime.exists_word h
          obtain rfl : l = w := (List.cons.inj heq).1
          rw [hl.1] at hw
          cases e <;> cases hw
      | time e' =>
          rw [(WritesTime.unique (r := []) (s := []) h h' rfl).1]

/-! ## Tokens from the scanner -/

/-- The token of a literal carries `atoi` of its text. -/
def FromScanner (l : Lexeme) : Prop :=
  l.major = .INTEGER → ∃ n, IntegerText l.yytext.bytes n ∧ l.minor = .intval (atoiOf n)

theorem atoi_eq {text : List UInt8} {n : Int} (h : IntegerText text n) : atoi text = atoiOf n := by
  have hlead : LeadingInteger text n [] := ⟨text, by simp, h, by simp⟩
  obtain ⟨neg, digits, hscan, htake, hne, hn⟩ := hlead.scan
  have hval : (strtoll text).val = max longMin (min n longMax) := by
    have horder : longMin ≤ longMax := by decide
    rw [strtoll]
    simp only [hscan, htake, hne, if_false, ← hn]
    split
    · next hhigh => rw [min_eq_right (Int.le_of_lt hhigh), max_eq_right horder]
    · next hhigh =>
        rw [min_eq_left (Int.not_lt.1 hhigh)]
        split
        · next hlow => rw [max_eq_left (Int.le_of_lt hlow)]
        · next hlow => rw [max_eq_right (Int.not_lt.1 hlow)]
  rw [atoi, hval, atoiOf]

/-- The texts that the rule of literals matches. -/
theorem integerText_of_mem {text : List UInt8}
    (h : text ∈ (Pattern.seq signClass (.some digitClass)).language) :
    0 ∉ text ∧ ∃ n, IntegerText text n := by
  obtain ⟨sign, hsign, digits, hdigits, rfl⟩ := Language.mem_mul.1 h
  have hall : digits ≠ [] ∧ ∀ b ∈ digits, isDigit b = true := by
    obtain ⟨_, ⟨d, hd, rfl⟩, ds, hds, rfl⟩ := Language.mem_mul.1 hdigits
    refine ⟨by simp, ?_⟩
    obtain ⟨S, rfl, hS⟩ := Language.mem_kstar.1 hds
    rintro b hb
    rcases List.mem_cons.1 hb with rfl | hb
    · exact hd
    · obtain ⟨w, hw, hbw⟩ := List.mem_flatten.1 hb
      obtain ⟨c, hc, rfl⟩ := hS w hw
      obtain rfl := List.mem_singleton.1 hbw
      exact hc
  have hsign' : sign = [] ∨ sign = [43] ∨ sign = [45] := by
    rcases (Language.mem_add _ _ _).1 hsign with hnil | ⟨b, hb, rfl⟩
    · exact Or.inl ((Language.mem_one _).1 hnil)
    · rcases of_decide_eq_true hb with rfl | rfl
      · exact Or.inr (Or.inr rfl)
      · exact Or.inr (Or.inl rfl)
  constructor
  · intro hzero
    rcases List.mem_append.1 hzero with hzero | hzero
    · rcases hsign' with rfl | rfl | rfl
      · cases hzero
      · exact absurd hzero (by decide)
      · exact absurd hzero (by decide)
    · exact absurd (hall.2 0 hzero) (by decide)
  · rcases hsign' with hsign | hsign | hsign
    · exact ⟨_, [], sign, digits, rfl, by simp, hall.1, hall.2, Or.inl ⟨Or.inl hsign, rfl⟩⟩
    · exact ⟨_, [], sign, digits, rfl, by simp, hall.1, hall.2, Or.inl ⟨Or.inr hsign, rfl⟩⟩
    · exact ⟨_, [], sign, digits, rfl, by simp, hall.1, hall.2, Or.inr ⟨hsign, rfl⟩⟩

/-- Only one rule returns INTEGER. -/
theorem lexRules_integer {r : LexRule} (hr : r ∈ lexRules) {act : TokenValue}
    (h : r.action = some (.INTEGER, act)) :
    r.pattern = .seq signClass (.some digitClass) ∧ act = .integer := by
  simp only [lexRules, List.mem_cons, List.not_mem_nil, or_false] at hr
  rcases hr with rfl | rfl | rfl | rfl | rfl | rfl | rfl | rfl | rfl | rfl | rfl | rfl | rfl |
    rfl | rfl | rfl | rfl | rfl | rfl | rfl | rfl | rfl | rfl | rfl | rfl | rfl | rfl | rfl |
    rfl | rfl | rfl | rfl
  all_goals cases h
  exact ⟨rfl, rfl⟩

theorem lexemes_fromScanner {strtod : List UInt8 → Strtod} {tok : Token} {ps : List (Piece UInt8)}
    (hps : ∀ p ∈ ps, ∀ i, p.rule = some i → ∃ P, lexPatterns[i]? = some P ∧ p.text ∈ P.language)
    {l : Lexeme} (hl : l ∈ lexemes strtod tok ps) : FromScanner l := by
  induction ps generalizing tok with
  | nil => cases hl
  | cons p ps ih =>
      have htail : ∀ tok, l ∈ lexemes strtod tok ps → FromScanner l :=
        fun _ => ih fun q hq => hps q (List.mem_cons_of_mem _ hq)
      rw [lexemes] at hl
      split at hl
      · next a act hrule =>
          rcases List.mem_cons.1 hl with rfl | hl
          · rintro rfl
            obtain ⟨i, hi, hri⟩ := Option.bind_eq_some_iff.1 hrule
            obtain ⟨r, hr, hact⟩ := Option.bind_eq_some_iff.1 hri
            obtain ⟨hpattern, rfl⟩ := lexRules_integer (List.mem_of_getElem? hr) hact
            obtain ⟨P, hP, htext⟩ := hps p List.mem_cons_self i hi
            obtain rfl : r.pattern = P := by simpa [lexPatterns, hr] using hP
            rw [hpattern] at htext
            obtain ⟨hnoNul, n, hn⟩ := integerText_of_mem htext
            refine ⟨n, ?_, congrArg Token.intval (atoi_eq hn)⟩
            change IntegerText (cString p.text).bytes n
            rwa [cString_bytes_of_notMem hnoNul]
          · exact htail _ hl
      · exact htail _ hl

theorem yylex_fromScanner {strtod : List UInt8 → Strtod} {tok : Token} {c : List UInt8} {l : Lexeme}
    (hl : l ∈ yylex strtod tok c) : FromScanner l :=
  lexemes_fromScanner (fun _ hp _ hi => mem_language_of_piece hp hi) hl

/-! ## What the grammar makes of constants -/

/-- What the tokens of a symbol say, and the value that its action makes of them. -/
def Says (clock : Int64) : Symbol → List Lexeme → YYMINORTYPE → Prop
  | .t a, ts, v => ∃ l, ts = [l] ∧ l.major = a ∧ v = .yy0 l.minor ∧ FromScanner l
  | .n .duration, ts, v => ∃ unit n, WritesCall (DurationUnit.terminal unit) n ts ∧
      v = .yy64 (unit.value n)
  | .n .timestamp, ts, v => ∃ e, WritesTime e ts ∧ v = .yy23 (e.value clock)
  | .n .value, ts, v => ∀ k, Writes k ts → v = .yy22 (k.value clock)
  | _, _, _ => True

section Rules

variable {clock : Int64} {a : Terminal} {us : List Lexeme} {xs : List YYMINORTYPE}

theorem says_call (h : Symbolwise (Says clock) [.t a, .t .LP, .t .INTEGER, .t .RP] us xs) :
    ∃ n x y z, WritesCall a n us ∧ xs = [x, y, .yy0 (.intval (atoiOf n)), z] := by
  obtain ⟨_, _, _, _, rfl, rfl, ⟨w, rfl, hw, rfl, _⟩, h₁⟩ := symbolwise_cons h
  obtain ⟨_, _, _, _, rfl, rfl, ⟨lp, rfl, hlp, rfl, _⟩, h₂⟩ := symbolwise_cons h₁
  obtain ⟨_, _, _, _, rfl, rfl, ⟨l, rfl, hl, rfl, hscan⟩, h₃⟩ := symbolwise_cons h₂
  obtain ⟨_, rfl, rp, rfl, hrp, rfl, _⟩ := symbolwise_one h₃
  obtain ⟨n, hn, hminor⟩ := hscan hl
  exact ⟨n, _, _, _, .mk hw hlp ⟨hl, hn⟩ hrp, by rw [hminor]⟩

theorem says_sum
    (h : Symbolwise (Says clock) [.t a, .t .LP, .n .timestamp, .t .COMMA, .n .duration, .t .RP] us xs) :
    ∃ e unit n x y z w,
      WritesSum a (WritesTime e) (WritesCall (DurationUnit.terminal unit) n) us ∧
        xs = [x, y, .yy23 (e.value clock), z, .yy64 (unit.value n), w] := by
  obtain ⟨_, _, _, _, rfl, rfl, ⟨w, rfl, hw, rfl, _⟩, h₁⟩ := symbolwise_cons h
  obtain ⟨_, _, _, _, rfl, rfl, ⟨lp, rfl, hlp, rfl, _⟩, h₂⟩ := symbolwise_cons h₁
  obtain ⟨ts, _, _, _, rfl, rfl, ⟨e, he, rfl⟩, h₃⟩ := symbolwise_cons h₂
  obtain ⟨_, _, _, _, rfl, rfl, ⟨comma, rfl, hcomma, rfl, _⟩, h₄⟩ := symbolwise_cons h₃
  obtain ⟨ds, _, _, _, rfl, rfl, ⟨unit, n, hd, rfl⟩, h₅⟩ := symbolwise_cons h₄
  obtain ⟨_, rfl, rp, rfl, hrp, rfl, _⟩ := symbolwise_one h₅
  exact ⟨e, unit, n, _, _, _, _, .mk hw hlp he hcomma hd hrp, rfl⟩

/-- A token that begins no constant says none. -/
theorem not_writes_singleton {l : Lexeme} {k : Constant}
    (hl : l.major ≠ .INTEGER ∧ l.major ≠ .NOW ∧ l.major ≠ .TODAY) : ¬Writes k [l] := by
  intro h
  cases k with
  | literal n =>
      obtain ⟨l', heq, hl'⟩ := h
      obtain rfl : l = l' := List.singleton_inj.1 heq
      exact hl.1 hl'.1
  | time e =>
      cases e with
      | now =>
          obtain ⟨l', heq, hl'⟩ := h
          obtain rfl : l = l' := List.singleton_inj.1 heq
          exact hl.2.1 hl'
      | today =>
          obtain ⟨l', heq, hl'⟩ := h
          obtain rfl : l = l' := List.singleton_inj.1 heq
          exact hl.2.2 hl'
      | time n => cases h
      | unix n => cases h
      | add e unit n => cases h
      | sub e unit n => cases h

/-- The rules say what their right sides say. -/
theorem says_rule (r : YYRule) (us : List Lexeme) (xs : List YYMINORTYPE) (v : YYMINORTYPE)
    (h : Symbolwise (Says clock) (parserGrammar.rhs r) us xs)
    (hsem : (parserActions clock).sem r xs = some v) : Says clock (.n (parserGrammar.lhs r)) us v := by
  obtain ⟨r, hr⟩ := r
  have hword : ∀ {a}, a ≠ .INTEGER ∧ a ≠ .NOW ∧ a ≠ .TODAY →
      Symbolwise (Says clock) [.t a] us xs → Says clock (.n .value) us v := by
    intro a ha h k hk
    obtain ⟨_, rfl, l, rfl, rfl, _, _⟩ := symbolwise_one h
    exact absurd hk (not_writes_singleton ha)
  interval_cases r
  -- `query`, `op` and `cond`
  iterate 14 exact trivial
  -- `value`
  · intro k hk
    obtain ⟨_, rfl, l, rfl, hl, rfl, hscan⟩ := symbolwise_one h
    obtain ⟨n, hn, hminor⟩ := hscan hl
    have hsays : Writes (.literal n) [l] := ⟨l, rfl, hl, hn⟩
    obtain rfl := hk.unique hsays
    rw [hminor] at hsem
    cases hsem
    rfl
  iterate 4 exact hword (by decide) h
  · intro k hk
    obtain ⟨_, rfl, e, he, rfl⟩ := symbolwise_one h
    have hsays : Writes (.time e) us := he
    obtain rfl := hk.unique hsays
    cases hsem
    rfl
  -- `vallist`, `multivals` and `prop`
  iterate 5 exact trivial
  -- `timestamp`
  · obtain ⟨_, rfl, l, rfl, hl, rfl, _⟩ := symbolwise_one h
    cases hsem
    exact ⟨.now, ⟨l, rfl, hl⟩, rfl⟩
  · obtain ⟨_, rfl, l, rfl, hl, rfl, _⟩ := symbolwise_one h
    cases hsem
    exact ⟨.today, ⟨l, rfl, hl⟩, rfl⟩
  · obtain ⟨n, _, _, _, hcall, rfl⟩ := says_call h
    cases hsem
    exact ⟨.time n, hcall, rfl⟩
  · obtain ⟨n, _, _, _, hcall, rfl⟩ := says_call h
    cases hsem
    exact ⟨.unix n, hcall, rfl⟩
  · obtain ⟨e, unit, n, _, _, _, _, hsum, rfl⟩ := says_sum h
    cases hsem
    exact ⟨.add e unit n, hsum, rfl⟩
  · obtain ⟨e, unit, n, _, _, _, _, hsum, rfl⟩ := says_sum h
    cases hsem
    exact ⟨.sub e unit n, hsum, rfl⟩
  -- `duration`
  · obtain ⟨n, _, _, _, hcall, rfl⟩ := says_call h
    cases hsem
    exact ⟨.days, n, hcall, rfl⟩
  · obtain ⟨n, _, _, _, hcall, rfl⟩ := says_call h
    cases hsem
    exact ⟨.hours, n, hcall, rfl⟩
  · obtain ⟨n, _, _, _, hcall, rfl⟩ := says_call h
    cases hsem
    exact ⟨.minutes, n, hcall, rfl⟩
  · obtain ⟨n, _, _, _, hcall, rfl⟩ := says_call h
    cases hsem
    exact ⟨.seconds, n, hcall, congrArg YYMINORTYPE.yy64 (DurationUnit.value_seconds n).symm⟩

/-- The value of the tokens of a constant can only be its value. -/
theorem value_of_evaluates {k : Constant} {ts : List Lexeme} {v : YYMINORTYPE}
    (hk : Writes k ts) (hts : ∀ l ∈ ts, FromScanner l)
    (h : Evaluates parserGrammar (parserActions clock) [.n .value] ts [v]) :
    v = .yy22 (k.value clock) := by
  have hsays := h.symbolwise (P := Says clock) (Q := FromScanner)
    (fun l hl => ⟨l, rfl, rfl, rfl, hl⟩) says_rule hts
  obtain ⟨_, heq, hvalue⟩ := symbolwise_one hsays
  cases heq
  exact hvalue k hk

end Rules

/-! ## The grammar has all constants -/

section Derivations

variable {a : Terminal} {n : Int} {ts : List Lexeme}

theorem SaysInteger.minor_eq {l : Lexeme} (h : SaysInteger l n) (hl : FromScanner l) :
    l.minor = .intval (atoiOf n) := by
  obtain ⟨m, hm, hminor⟩ := hl h.1
  have hsame : SaysInteger l m := ⟨h.1, hm⟩
  rw [hminor, h.unique hsame]

variable {clock : Int64}

theorem evaluates_of_rule {r : YYRule} {us : List Lexeme} {xs : List YYMINORTYPE} {v : YYMINORTYPE}
    (h : Evaluates parserGrammar (parserActions clock) (parserGrammar.rhs r) us xs)
    (hsem : (parserActions clock).sem r xs = some v) :
    Evaluates parserGrammar (parserActions clock) [.n (parserGrammar.lhs r)] us [v] := by
  simpa using h.rule hsem .nil

variable (clock)

theorem WritesCall.evaluates (h : WritesCall a n ts) (hts : ∀ l ∈ ts, FromScanner l) :
    ∃ x y z, Evaluates parserGrammar (parserActions clock) [.t a, .t .LP, .t .INTEGER, .t .RP] ts
      [x, y, .yy0 (.intval (atoiOf n)), z] := by
  cases h with
  | @mk w lp l rp hw hlp hl hrp =>
      have hrun : Evaluates parserGrammar (parserActions clock)
          [.t w.major, .t lp.major, .t l.major, .t rp.major] [w, lp, l, rp]
          [.yy0 w.minor, .yy0 lp.minor, .yy0 l.minor, .yy0 rp.minor] :=
        .term (.term (.term (.term .nil)))
      rw [hw, hlp, hl.1, hrp, hl.minor_eq (hts l (by simp))] at hrun
      exact ⟨_, _, _, hrun⟩

theorem evaluates_duration {unit : DurationUnit} (h : WritesCall unit.terminal n ts)
    (hts : ∀ l ∈ ts, FromScanner l) :
    Evaluates parserGrammar (parserActions clock) [.n .duration] ts [.yy64 (unit.value n)] := by
  obtain ⟨x, y, z, hrun⟩ := h.evaluates clock hts
  cases unit with
  | days => exact evaluates_of_rule (r := 31) hrun rfl
  | hours => exact evaluates_of_rule (r := 32) hrun rfl
  | minutes => exact evaluates_of_rule (r := 33) hrun rfl
  | seconds =>
      rw [DurationUnit.value_seconds]
      exact evaluates_of_rule (r := 34) hrun rfl

theorem WritesSum.evaluates {P : List Lexeme → Prop} {unit : DurationUnit} {t : Int64}
    (h : WritesSum a P (WritesCall unit.terminal n) ts) (hts : ∀ l ∈ ts, FromScanner l)
    (hP : ∀ us, P us → (∀ l ∈ us, FromScanner l) →
      Evaluates parserGrammar (parserActions clock) [.n .timestamp] us [.yy23 t]) :
    ∃ x y z w, Evaluates parserGrammar (parserActions clock)
      [.t a, .t .LP, .n .timestamp, .t .COMMA, .n .duration, .t .RP] ts
      [x, y, .yy23 t, z, .yy64 (unit.value n), w] := by
  cases h with
  | @mk w lp comma rp us ds hw hlp hus hcomma hds hrp =>
      have htime := hP us hus fun l hl => hts l (by simp [hl])
      have hduration := evaluates_duration clock hds fun l hl => hts l (by simp [hl])
      have hrun : Evaluates parserGrammar (parserActions clock)
          [.t w.major, .t lp.major, .n .timestamp, .t comma.major, .n .duration, .t rp.major]
          (w :: lp :: (us ++ comma :: (ds ++ [rp])))
          [.yy0 w.minor, .yy0 lp.minor, .yy23 t, .yy0 comma.minor, .yy64 (unit.value n),
            .yy0 rp.minor] :=
        .term (.term (htime.append (.term (hduration.append (.term .nil)))))
      rw [hw, hlp, hcomma, hrp] at hrun
      exact ⟨_, _, _, _, hrun⟩

theorem evaluates_timestamp {e : TimeExpr} (h : WritesTime e ts) (hts : ∀ l ∈ ts, FromScanner l) :
    Evaluates parserGrammar (parserActions clock) [.n .timestamp] ts [.yy23 (e.value clock)] := by
  induction e generalizing ts with
  | now =>
      obtain ⟨l, rfl, hl⟩ := h
      have hrun : Evaluates parserGrammar (parserActions clock) [.t l.major] [l] [.yy0 l.minor] :=
        .term .nil
      rw [hl] at hrun
      exact evaluates_of_rule (r := 25) hrun rfl
  | today =>
      obtain ⟨l, rfl, hl⟩ := h
      have hrun : Evaluates parserGrammar (parserActions clock) [.t l.major] [l] [.yy0 l.minor] :=
        .term .nil
      rw [hl] at hrun
      exact evaluates_of_rule (r := 26) hrun rfl
  | time n =>
      obtain ⟨x, y, z, hrun⟩ := WritesCall.evaluates clock h hts
      exact evaluates_of_rule (r := 27) hrun rfl
  | unix n =>
      obtain ⟨x, y, z, hrun⟩ := WritesCall.evaluates clock h hts
      exact evaluates_of_rule (r := 28) hrun rfl
  | add e unit n ih =>
      obtain ⟨x, y, z, w, hrun⟩ := WritesSum.evaluates clock h hts fun us hus hscan => ih hus hscan
      exact evaluates_of_rule (r := 29) hrun rfl
  | sub e unit n ih =>
      obtain ⟨x, y, z, w, hrun⟩ := WritesSum.evaluates clock h hts fun us hus hscan => ih hus hscan
      exact evaluates_of_rule (r := 30) hrun rfl

theorem evaluates_value {k : Constant} (h : Writes k ts) (hts : ∀ l ∈ ts, FromScanner l) :
    Evaluates parserGrammar (parserActions clock) [.n .value] ts [.yy22 (k.value clock)] := by
  cases k with
  | literal n =>
      obtain ⟨l, rfl, hl⟩ := h
      have hrun : Evaluates parserGrammar (parserActions clock) [.t l.major] [l] [.yy0 l.minor] :=
        .term .nil
      rw [hl.1, hl.minor_eq (hts l (by simp))] at hrun
      exact evaluates_of_rule (r := 14) hrun rfl
  | time e => exact evaluates_of_rule (r := 19) (evaluates_timestamp clock h hts) rfl

end Derivations

/-! ## Exactness -/

/-- The grammar makes one value of the tokens, and it is the exact value of the constant. -/
def HasExactValue (clock : Int64) (k : Constant) (ts : List Lexeme) : Prop :=
  ∃ v, (∀ w, Evaluates parserGrammar (parserActions clock) [.n .value] ts [w] ↔ w = .yy22 v) ∧
    v.type = k.type ∧ v.integer = some (k.exact clock)

/-- A constant of a query, all of whose parts have 64 bits, has its exact value if and only if what
32 bits lose of its literals and durations cancels modulo 2^64. -/
theorem constant_exact_iff {strtod : List UInt8 → Strtod} {tok : Token} {c : List UInt8}
    {ts : List Lexeme} (hts : ts <:+: yylex strtod tok c) {k : Constant} (hk : Writes k ts)
    {clock : Int64} (hfits : k.Fits clock) :
    HasExactValue clock k ts ↔ (2 ^ 64 : Int) ∣ k.lost := by
  have hscan : ∀ l ∈ ts, FromScanner l := fun l hl => yylex_fromScanner (hts.subset hl)
  have hvalue := evaluates_value clock hk hscan
  rw [← Constant.value_exact_iff hfits]
  constructor
  · rintro ⟨v, hall, _, hexact⟩
    obtain rfl : k.value clock = v := YYMINORTYPE.yy22.inj ((hall _).1 hvalue)
    exact hexact
  · intro hexact
    refine ⟨k.value clock, fun w => ⟨value_of_evaluates hk hscan, ?_⟩, ?_, hexact⟩
    · rintro rfl
      exact hvalue
    · cases k <;> rfl

/-- `TIME_ADD(NOW, DAYS(2))` -/
theorem constant_exact_iff_days :
    ∃ ts, ts = yylex (fun _ => { val := 0, failed := false, noDigits := true }) (.intval 0)
        (ascii "TIME_ADD(NOW, DAYS(2))") ∧
      (HasExactValue 1500000000 (.time (.add .now .days 2)) ts ↔
        (2 ^ 64 : Int) ∣ (Constant.time (.add .now .days 2)).lost) := by
  have hlex : [⟨.TIME_ADD, .intval 0, cString (ascii "TIME_ADD")⟩,
      ⟨.LP, .intval 0, cString (ascii "(")⟩, ⟨.NOW, .intval 0, cString (ascii "NOW")⟩,
      ⟨.COMMA, .intval 0, cString (ascii ",")⟩, ⟨.DAYS, .intval 0, cString (ascii "DAYS")⟩,
      ⟨.LP, .intval 0, cString (ascii "(")⟩, ⟨.INTEGER, .intval 2, cString (ascii "2")⟩,
      ⟨.RP, .intval 2, cString (ascii ")")⟩, ⟨.RP, .intval 2, cString (ascii ")")⟩] =
        yylex (fun _ => { val := 0, failed := false, noDigits := true }) (.intval 0)
          (ascii "TIME_ADD(NOW, DAYS(2))") := by
    decide +kernel
  have htwo : IntegerText (cString (ascii "2")).bytes 2 :=
    ⟨[], [], [50], by decide, by simp, by simp, by decide +kernel, Or.inl ⟨Or.inl rfl, by decide⟩⟩
  have hinfix := List.infix_refl (yylex (fun _ => { val := 0, failed := false, noDigits := true })
    (.intval 0) (ascii "TIME_ADD(NOW, DAYS(2))"))
  nth_rewrite 1 [← hlex] at hinfix
  refine ⟨_, hlex, constant_exact_iff hinfix ?_ ⟨trivial, by decide, by decide, by decide⟩⟩
  have hnow : WritesTime .now [⟨.NOW, .intval 0, cString (ascii "NOW")⟩] := ⟨_, rfl, rfl⟩
  have hdays : WritesCall .DAYS 2 [⟨.DAYS, .intval 0, cString (ascii "DAYS")⟩,
      ⟨.LP, .intval 0, cString (ascii "(")⟩, ⟨.INTEGER, .intval 2, cString (ascii "2")⟩,
      ⟨.RP, .intval 2, cString (ascii ")")⟩] := .mk rfl rfl ⟨rfl, htwo⟩ rfl
  exact @WritesSum.mk .TIME_ADD _ _ ⟨.TIME_ADD, .intval 0, cString (ascii "TIME_ADD")⟩
    ⟨.LP, .intval 0, cString (ascii "(")⟩ ⟨.COMMA, .intval 0, cString (ascii ",")⟩
    ⟨.RP, .intval 2, cString (ascii ")")⟩ _ _ rfl rfl hnow rfl hdays rfl

/-- The literal `4294967296` has the value 0. -/
theorem constant_twoPow32_lost :
    ∃ ts, ts = yylex (fun _ => { val := 0, failed := false, noDigits := true }) (.intval 0)
        (ascii "4294967296") ∧
      Writes (.literal 4294967296) ts ∧ (Constant.literal 4294967296).Fits 0 ∧
      ¬HasExactValue 0 (.literal 4294967296) ts := by
  have hlex : [⟨.INTEGER, .intval 0, cString (ascii "4294967296")⟩] =
        yylex (fun _ => { val := 0, failed := false, noDigits := true }) (.intval 0)
          (ascii "4294967296") := by
    decide +kernel
  have htext : IntegerText (cString (ascii "4294967296")).bytes 4294967296 :=
    ⟨[], [], ascii "4294967296", by decide, by simp, by decide, by decide +kernel,
      Or.inl ⟨Or.inl rfl, by decide⟩⟩
  have hwrites : Writes (.literal 4294967296)
      [⟨.INTEGER, .intval 0, cString (ascii "4294967296")⟩] := ⟨_, rfl, rfl, htext⟩
  have hfits : InInt64 4294967296 := by decide
  refine ⟨_, hlex, hwrites, hfits, ?_⟩
  rintro ⟨v, hall, _, hexact⟩
  have hscan : ∀ l ∈ [(⟨.INTEGER, .intval 0, cString (ascii "4294967296")⟩ : Lexeme)],
      FromScanner l := by
    rw [hlex]
    exact fun l hl => yylex_fromScanner hl
  obtain rfl := YYMINORTYPE.yy22.inj ((hall _).1 (evaluates_value 0 hwrites hscan))
  exact absurd hexact (by decide)

end Secondary
