import Secondary.Lib.Decimal
import Secondary.Lib.Float
import Secondary.Schema

/-!
# ParseValue — values as text

`SI_ParseValue` reads a value of a given type from the bytes of an argument, and
`siValueToRMString` writes one for the AOF.  A conversion of the C library stops at the first byte
that it cannot use, and the NUL after the last byte is such a byte.
-/

namespace Secondary

open Lib

/-! ## Parsing -/

/-- `isspace` in the C locale. -/
def isSpace (b : UInt8) : Bool :=
  decide (b = 32 ∨ (9 ≤ b ∧ b ≤ 13))

/-- What `strtoll` returns, and what it leaves in `errno` and `endptr`. -/
structure Strtoll where
  val : Int
  /-- `errno == ERANGE` -/
  erange : Bool
  /-- `endptr == str` -/
  noDigits : Bool

def longMax : Int := 2 ^ 63 - 1

def longMin : Int := -2 ^ 63

/-- The sign and the bytes after it. -/
def takeSign : List UInt8 → Bool × List UInt8
  | 45 :: bs => (true, bs)
  | 43 :: bs => (false, bs)
  | bs => (false, bs)

/-- `strtoll(str, &endptr, 10)` -/
def strtoll (str : List UInt8) : Strtoll :=
  let s := takeSign (str.dropWhile isSpace)
  let digits := s.2.takeWhile isDigit
  let n : Int := if s.1 then -(decimalValue digits : Int) else decimalValue digits
  if digits = [] then
    { val := 0, erange := false, noDigits := true }
  else if longMax < n then
    { val := longMax, erange := true, noDigits := false }
  else if n < longMin then
    { val := longMin, erange := true, noDigits := false }
  else
    { val := n, erange := false, noDigits := false }

/-- `_parseInt` -/
def parseInt (t : SIType) (str : List UInt8) : Option SIValue :=
  let r := strtoll str
  if (r.erange = true ∧ (r.val = longMax ∨ r.val = longMin)) ∨ (r.erange = true ∧ r.val = 0) then
    none
  else if r.noDigits then
    none
  else
    match t with
    | .int32 => some (.int32 (Int32.ofInt r.val))
    | .int64 => some (.int64 (Int64.ofInt r.val))
    | .uint => some (.uint (UInt64.ofInt r.val))
    | .time => some (.time (Int64.ofInt r.val))
    | _ => none

/-- `_parseBool` -/
def parseBool (str : List UInt8) : Option SIValue :=
  if (str.length = 1 ∧ str = ascii "1") ∨
      (str.length = 4 ∧ strncasecmp 4 (ascii "true") str = 0) then
    some (.bool 1)
  else if (str.length = 1 ∧ str = ascii "0") ∨
      (str.length = 5 ∧ strncasecmp 5 (ascii "false") str = 0) then
    some (.bool 0)
  else
    none

/-- What `strtod` returns, and what it leaves in `errno` and `endptr`. -/
structure Strtod where
  val : UInt64
  /-- `errno != 0` -/
  failed : Bool
  /-- `endptr == str` -/
  noDigits : Bool

/-- `_parseFloat` -/
def parseFloat (strtod : List UInt8 → Strtod) (t : SIType) (str : List UInt8) : Option SIValue :=
  let r := strtod str
  if r.failed = true ∨ (r.noDigits = true ∧ place64 r.val = some 0) then
    none
  else
    match t with
    | .float => some (.float (UInt32.ofNat (narrow r.val.toNat)))
    | .double => some (.double r.val)
    | _ => none

/-- `SI_ParseValue` for a value of type `t`; nothing where it returns 0. -/
def siParseValue (strtod : List UInt8 → Strtod) (t : SIType) (str : List UInt8) : Option SIValue :=
  match t with
  | .string => some (.string str)
  | .int32 => parseInt t str
  | .int64 => parseInt t str
  | .uint => parseInt t str
  | .time => parseInt t str
  | .bool => parseBool str
  | .float => parseFloat strtod t str
  | .double => parseFloat strtod t str
  | _ => none

/-- What `_parseInt` makes is of the type asked for. -/
theorem parseInt_type {t : SIType} {str : List UInt8} {v : SIValue} (h : parseInt t str = some v) :
    v.type = t ∧ v.NotNaN := by
  simp only [parseInt] at h
  split at h
  · cases h
  split at h
  · cases h
  cases t <;> first
    | (obtain rfl := Option.some.inj h; exact ⟨rfl, trivial⟩)
    | cases h

theorem parseBool_type {str : List UInt8} {v : SIValue} (h : parseBool str = some v) :
    v.type = .bool ∧ v.NotNaN := by
  simp only [parseBool] at h
  split at h
  · obtain rfl := Option.some.inj h
    exact ⟨rfl, trivial⟩
  split at h
  · obtain rfl := Option.some.inj h
    exact ⟨rfl, trivial⟩
  · cases h

/-- The column types that are not floating-point. -/
abbrev exactTypes : List SIType :=
  [.string, .int32, .int64, .uint, .bool, .time]

/-- What is parsed for a type is of that type. -/
theorem parse_type {strtod : List UInt8 → Strtod} {t : SIType} {str : List UInt8} {v : SIValue}
    (ht : t ∈ exactTypes) (h : siParseValue strtod t str = some v) : v.type = t ∧ v.NotNaN := by
  simp only [List.mem_cons, List.not_mem_nil, or_false] at ht
  rcases ht with rfl | rfl | rfl | rfl | rfl | rfl
  · obtain rfl := Option.some.inj h
    exact ⟨rfl, trivial⟩
  · exact parseInt_type h
  · exact parseInt_type h
  · exact parseInt_type h
  · exact parseBool_type h
  · exact parseInt_type h

/-! ## What `strtoll` reads -/

/-- The text is blanks, a sign or none, and digits, and says `i`. -/
def IntegerText (text : List UInt8) (i : Int) : Prop :=
  ∃ blanks sign digits, text = blanks ++ (sign ++ digits) ∧ (∀ b ∈ blanks, isSpace b = true) ∧
    digits ≠ [] ∧ (∀ b ∈ digits, isDigit b = true) ∧
    (((sign = [] ∨ sign = [43]) ∧ i = decimalValue digits) ∨
      (sign = [45] ∧ i = -(decimalValue digits : Int)))

/-- The string begins with the integer `i`, and goes on with `rest` behind its digits. -/
def LeadingInteger (str : List UInt8) (i : Int) (rest : List UInt8) : Prop :=
  ∃ text, str = text ++ rest ∧ IntegerText text i ∧ ∀ b ∈ rest.head?, isDigit b = false

theorem not_isSpace_of_isDigit {b : UInt8} (h : isDigit b = true) : isSpace b = false := by
  rw [isDigit, decide_eq_true_eq, UInt8.le_iff_toNat_le, UInt8.le_iff_toNat_le] at h
  have h48 : 48 ≤ b.toNat := h.1
  rw [isSpace, decide_eq_false_iff_not, ← UInt8.toNat_inj, UInt8.le_iff_toNat_le,
    UInt8.le_iff_toNat_le]
  show ¬(b.toNat = 32 ∨ (9 ≤ b.toNat ∧ b.toNat ≤ 13))
  omega

/-- A digit is no sign. -/
theorem takeSign_of_isDigit {b : UInt8} (h : isDigit b = true) (bs : List UInt8) :
    takeSign (b :: bs) = (false, b :: bs) := by
  have hminus : b ≠ 45 := by
    rintro rfl
    exact absurd h (by decide)
  have hplus : b ≠ 43 := by
    rintro rfl
    exact absurd h (by decide)
  simp [takeSign, hminus, hplus]

/-- The sign that is taken off. -/
theorem takeSign_spec (bs : List UInt8) :
    ∃ sign, bs = sign ++ (takeSign bs).2 ∧
      (((takeSign bs).1 = false ∧ (sign = [] ∨ sign = [43])) ∨
        ((takeSign bs).1 = true ∧ sign = [45])) := by
  unfold takeSign
  split
  · exact ⟨[45], rfl, Or.inr ⟨rfl, rfl⟩⟩
  · exact ⟨[43], rfl, Or.inl ⟨rfl, Or.inr rfl⟩⟩
  · exact ⟨[], rfl, Or.inl ⟨rfl, Or.inl rfl⟩⟩

/-- The scan of a string that begins with an integer. -/
theorem LeadingInteger.scan {str : List UInt8} {i : Int} {rest : List UInt8}
    (h : LeadingInteger str i rest) :
    ∃ neg digits, takeSign (str.dropWhile isSpace) = (neg, digits ++ rest) ∧
      (digits ++ rest).takeWhile isDigit = digits ∧ digits ≠ [] ∧
      i = if neg then -(decimalValue digits : Int) else decimalValue digits := by
  obtain ⟨_, rfl, ⟨blanks, sign, digits, rfl, hblanks, hne, hdigits, hsign⟩, hrest⟩ := h
  obtain ⟨d, ds, rfl⟩ := List.exists_cons_of_ne_nil hne
  have hd : isDigit d = true := hdigits d List.mem_cons_self
  have htake : (d :: ds ++ rest).takeWhile isDigit = d :: ds := by
    rw [List.takeWhile_append_of_pos hdigits]
    cases rest with
    | nil => simp
    | cons b rest =>
        have hb : isDigit b = false := hrest b rfl
        simp [hb]
  have hdrop : ∀ c cs, isSpace c = false →
      (blanks ++ c :: cs).dropWhile isSpace = c :: cs := by
    intro c cs hc
    rw [List.dropWhile_append_of_pos hblanks, List.dropWhile_cons_of_neg (by simp [hc])]
  simp only [List.append_assoc]
  rcases hsign with ⟨rfl | rfl, rfl⟩ | ⟨rfl, rfl⟩
  · refine ⟨false, d :: ds, ?_, htake, hne, rfl⟩
    rw [List.nil_append, List.cons_append, hdrop d _ (not_isSpace_of_isDigit hd),
      takeSign_of_isDigit hd]
  · refine ⟨false, d :: ds, ?_, htake, hne, rfl⟩
    rw [List.singleton_append, hdrop 43 _ rfl]
    rfl
  · refine ⟨true, d :: ds, ?_, htake, hne, rfl⟩
    rw [List.singleton_append, hdrop 45 _ rfl]
    rfl

/-- There is at most one integer at the beginning of a string. -/
theorem LeadingInteger.unique {str rest rest' : List UInt8} {i i' : Int}
    (h : LeadingInteger str i rest) (h' : LeadingInteger str i' rest') : i = i' ∧ rest = rest' := by
  obtain ⟨neg, digits, hscan, htake, _, rfl⟩ := h.scan
  obtain ⟨neg', digits', hscan', htake', _, rfl⟩ := h'.scan
  rw [hscan, Prod.mk.injEq] at hscan'
  obtain ⟨rfl, happend⟩ := hscan'
  obtain rfl : digits = digits' := by rw [← htake, happend, htake']
  exact ⟨rfl, List.append_cancel_left happend⟩

/-- `strtoll` reads the integer at the beginning of the string, if it fits. -/
theorem LeadingInteger.strtoll_eq {str rest : List UInt8} {i : Int} (h : LeadingInteger str i rest)
    (hmin : longMin ≤ i) (hmax : i ≤ longMax) :
    strtoll str = { val := i, erange := false, noDigits := false } := by
  obtain ⟨neg, digits, hscan, htake, hne, rfl⟩ := h.scan
  rw [strtoll]
  simp only [hscan, htake, hne, if_false]
  rw [if_neg (by omega), if_neg (by omega)]

/-- What `strtoll` reads without an error is an integer at the beginning of the string. -/
theorem leadingInteger_of_strtoll {str : List UInt8} (hdigits : (strtoll str).noDigits = false)
    (herange : (strtoll str).erange = false) :
    ∃ rest, LeadingInteger str (strtoll str).val rest ∧ longMin ≤ (strtoll str).val ∧
      (strtoll str).val ≤ longMax := by
  obtain ⟨sign, hsplit, hsign⟩ := takeSign_spec (str.dropWhile isSpace)
  generalize hs : takeSign (str.dropWhile isSpace) = s at hsplit hsign
  have hne : s.2.takeWhile isDigit ≠ [] := by
    intro hnil
    simp [strtoll, hs, hnil] at hdigits
  generalize hn : (if s.1 = true then -(decimalValue (s.2.takeWhile isDigit) : Int)
    else decimalValue (s.2.takeWhile isDigit)) = n
  -- No `ERANGE`, so the value was not clamped at either end.
  have hval : (strtoll str).val = n ∧ longMin ≤ n ∧ n ≤ longMax := by
    rw [strtoll] at herange ⊢
    simp only [hs, hne, if_false, hn] at herange ⊢
    split at herange
    · cases herange
    split at herange
    · cases herange
    · rw [if_neg ‹_›, if_neg ‹_›]
      exact ⟨rfl, by omega, by omega⟩
  rw [hval.1]
  -- The word is its blanks, the sign, the digits and what follows the last digit.
  refine ⟨s.2.dropWhile isDigit, ⟨str.takeWhile isSpace ++ (sign ++ s.2.takeWhile isDigit), ?_,
    ⟨_, sign, _, rfl, ?_, hne, ?_, ?_⟩, ?_⟩, hval.2⟩
  · rw [List.append_assoc, List.append_assoc, List.takeWhile_append_dropWhile, ← hsplit,
      List.takeWhile_append_dropWhile]
  · exact fun b hb => List.mem_takeWhile_imp hb
  · exact fun b hb => List.mem_takeWhile_imp hb
  · rcases hsign with ⟨hneg, hsign⟩ | ⟨hneg, hsign⟩
    · exact Or.inl ⟨hsign, by simp [← hn, hneg]⟩
    · exact Or.inr ⟨hsign, by simp [← hn, hneg]⟩
  · intro b hb
    have := List.head?_dropWhile_not isDigit s.2
    rw [Option.mem_def.1 hb] at this
    simpa using this

/-- The integer that a value is. -/
def SIValue.integer : SIValue → Option Int
  | .int32 i => some i.toInt
  | .int64 i => some i.toInt
  | .uint u => some u.toNat
  | .time t => some t.toInt
  | _ => none

/-- The `switch` of `_parseInt`: the member of the type, with the number narrowed to it. -/
def intMember (t : SIType) (val : Int) : Option SIValue :=
  match t with
  | .int32 => some (.int32 (Int32.ofInt val))
  | .int64 => some (.int64 (Int64.ofInt val))
  | .uint => some (.uint (UInt64.ofInt val))
  | .time => some (.time (Int64.ofInt val))
  | _ => none

/-- `_parseInt` takes the integer at the beginning of the string, whatever follows it and whatever
the column holds. -/
theorem parseInt_eq_some_iff {t : SIType} {str : List UInt8} {v : SIValue} :
    parseInt t str = some v ↔ ∃ i rest, LeadingInteger str i rest ∧ longMin ≤ i ∧ i ≤ longMax ∧
      intMember t i = some v := by
  have hparse : parseInt t str =
      if (strtoll str).erange = true then none
      else if (strtoll str).noDigits = true then none else intMember t (strtoll str).val := by
    have hclamp : (strtoll str).erange = true →
        (strtoll str).val = longMax ∨ (strtoll str).val = longMin := by
      simp only [strtoll]
      split_ifs <;> simp
    unfold parseInt intMember
    by_cases herange : (strtoll str).erange = true
    · rw [if_pos herange]
      exact if_pos (Or.inl ⟨herange, hclamp herange⟩)
    · rw [if_neg herange]
      exact if_neg (by simp [herange])
  rw [hparse]
  constructor
  · intro h
    split at h
    · cases h
    split at h
    · cases h
    · obtain ⟨rest, hlead, hmin, hmax⟩ := leadingInteger_of_strtoll
        (Bool.eq_false_iff.2 ‹_›) (Bool.eq_false_iff.2 ‹_›)
      exact ⟨_, rest, hlead, hmin, hmax, h⟩
  · rintro ⟨i, rest, hlead, hmin, hmax, hv⟩
    simpa [hlead.strtoll_eq hmin hmax] using hv

/-! ## Writing -/

/-- `%.<d>f`, from the bits of a `double`: `d` decimals of the exact value, rounded ties to even.
`%f` has six of them. -/
def fixedText (d : Nat) (bits : Nat) : List UInt8 :=
  let sign : List UInt8 := if bits / 2 ^ 63 % 2 = 1 then [45] else []
  let exp := bits / 2 ^ 52 % 2 ^ 11
  let frac := bits % 2 ^ 52
  if exp = 2047 then
    sign ++ (if frac = 0 then ascii "inf" else ascii "nan")
  else
    -- A subnormal number has no leading one.
    let significand := if exp = 0 then frac else 2 ^ 52 + frac
    let units :=
      if 1075 ≤ exp then
        significand * 2 ^ (exp - 1075) * 10 ^ d
      else
        roundShift (significand * 10 ^ d) (1075 - max exp 1)
    let decimals := decimal (units % 10 ^ d)
    sign ++ decimal (units / 10 ^ d) ++ 46 ::
      (List.replicate (d - decimals.length) 48 ++ decimals)

/-- The text of a value before it is cut to the length of the buffer. -/
def valueText : SIValue → List UInt8
  | .string s => 34 :: (s.takeWhile fun b => decide (b ≠ 0)) ++ [34]
  | .int32 i => signedDecimal i.toInt
  | .int64 i => signedDecimal i.toInt
  -- `%zd` takes the value as signed.
  | .uint u => signedDecimal u.toInt64.toInt
  | .time t => signedDecimal t.toInt
  | .bool b => if b ≠ 0 then ascii "true" else ascii "false"
  | .float f => fixedText 6 (widen f.toNat)
  | .double d => fixedText 6 d.toNat
  | .inf => ascii "+inf"
  | .negInf => ascii "-inf"
  | .null => ascii "NULL"

/-- `SIValue_ToString` into a buffer of `len` bytes. -/
def siValueToString (v : SIValue) (len : Nat) : List UInt8 :=
  (valueText v).take (len - 1)

/-- `siValueToRMString` -/
def siValueToRMString : SIValue → RedisModuleString
  | .string s => s
  | v => siValueToString v 128

example : fixedText 6 0x3ff8000000000000 = ascii "1.500000" := by decide +kernel

/-! ## What is written is read back -/

/-- Digits have no sign in front of them. -/
theorem takeSign_decimal (n : Nat) : takeSign (decimal n) = (false, decimal n) := by
  cases h : decimal n with
  | nil => rfl
  | cons b bs => exact takeSign_of_isDigit (isDigit_decimal n b (by simp [h])) bs

theorem dropWhile_signedDecimal (i : Int) :
    (signedDecimal i).dropWhile isSpace = signedDecimal i := by
  have hhead : ∀ b bs, signedDecimal i = b :: bs → isSpace b = false := by
    intro b bs hcons
    by_cases hneg : i < 0
    · rw [signedDecimal, if_pos hneg] at hcons
      obtain rfl := (List.cons.inj hcons).1
      decide
    · rw [signedDecimal, if_neg hneg] at hcons
      exact not_isSpace_of_isDigit (isDigit_decimal i.natAbs b (by simp [hcons]))
  cases hcons : signedDecimal i with
  | nil => rfl
  | cons b bs => rw [List.dropWhile_cons_of_neg (by simp [hhead b bs hcons])]

theorem strtoll_signedDecimal {i : Int} (hmin : longMin ≤ i) (hmax : i ≤ longMax) :
    strtoll (signedDecimal i) = { val := i, erange := false, noDigits := false } := by
  have hsign : takeSign (signedDecimal i) = (decide (i < 0), decimal i.natAbs) := by
    by_cases hneg : i < 0
    · simp [signedDecimal, hneg, takeSign]
    · simp [signedDecimal, hneg, takeSign_decimal]
  have hdigits : (decimal i.natAbs).takeWhile isDigit = decimal i.natAbs :=
    List.takeWhile_eq_self_iff.2 (isDigit_decimal i.natAbs)
  have hval : (if decide (i < 0) = true then -(i.natAbs : Int) else i.natAbs) = i := by
    by_cases hneg : i < 0
    · rw [if_pos (by simpa using hneg)]
      omega
    · rw [if_neg (by simpa using hneg)]
      omega
  simp only [strtoll, dropWhile_signedDecimal, hsign, hdigits, decimalValue_decimal, hval,
    decimal_ne_nil, if_false]
  rw [if_neg (by omega), if_neg (by omega)]

theorem length_signedDecimal_le {i : Int} (hmin : longMin ≤ i) (hmax : i ≤ longMax) :
    (signedDecimal i).length ≤ 127 := by
  have habs : i.natAbs < 10 ^ 20 := by
    rw [longMin] at hmin
    rw [longMax] at hmax
    omega
  have hlen : (decimal i.natAbs).length ≤ 20 := by
    by_cases hzero : i.natAbs = 0
    · simp [decimal, hzero]
    · rw [decimal, if_neg hzero, List.length_map, List.length_reverse]
      exact (Nat.digits_length_le_iff (by decide) _).2 habs
  by_cases hneg : i < 0
  · rw [signedDecimal, if_pos hneg, List.length_cons]
    omega
  · rw [signedDecimal, if_neg hneg]
    omega

theorem parseInt_signedDecimal {i : Int} (hmin : longMin ≤ i) (hmax : i ≤ longMax) (t : SIType) :
    parseInt t ((signedDecimal i).take 127) =
      match t with
      | .int32 => some (.int32 (Int32.ofInt i))
      | .int64 => some (.int64 (Int64.ofInt i))
      | .uint => some (.uint (UInt64.ofInt i))
      | .time => some (.time (Int64.ofInt i))
      | _ => none := by
  rw [List.take_of_length_le (length_signedDecimal_le hmin hmax)]
  simp only [parseInt, strtoll_signedDecimal hmin hmax, Bool.false_eq_true, false_and, or_self,
    if_false]

theorem int64_bounds (i : Int64) : longMin ≤ i.toInt ∧ i.toInt ≤ longMax := by
  have hlo := i.minValue_le_toInt
  have hhi := i.toInt_le
  exact ⟨hlo, hhi⟩

theorem int32_bounds (i : Int32) : longMin ≤ i.toInt ∧ i.toInt ≤ longMax := by
  have hlo : (-2 ^ 31 : Int) ≤ i.toInt := i.minValue_le_toInt
  have hhi : i.toInt ≤ (2 ^ 31 - 1 : Int) := i.toInt_le
  rw [longMin, longMax]
  omega

/-- Read as unsigned, a number that was written as signed is itself again. -/
theorem uint64_ofInt_toInt64 (u : UInt64) : UInt64.ofInt u.toInt64.toInt = u := by
  have hlt : u.toNat < 2 ^ 64 := u.toNat_lt
  have hsigned : u.toInt64.toInt = u.toBitVec.toInt := rfl
  have hnat : u.toBitVec.toNat = u.toNat := rfl
  have hmod : u.toInt64.toInt % 2 ^ 64 = u.toNat := by
    rw [hsigned, BitVec.toInt_eq_toNat_cond, hnat]
    split <;> omega
  apply UInt64.toNat_inj.1
  rw [UInt64.ofInt, hmod, Int.toNat_natCast, UInt64.toNat_ofNat', Nat.mod_eq_of_lt hlt]

/-- A value that the AOF can hold: not NULL, and no other truth value than 0 and 1. -/
def Restorable : SIValue → Prop
  | .null => False
  | .bool b => b = 0 ∨ b = 1
  | _ => True

instance : DecidablePred Restorable
  | .null => .isFalse id
  | .bool b => inferInstanceAs (Decidable (b = 0 ∨ b = 1))
  | .string _ => .isTrue trivial
  | .int32 _ => .isTrue trivial
  | .int64 _ => .isTrue trivial
  | .uint _ => .isTrue trivial
  | .float _ => .isTrue trivial
  | .double _ => .isTrue trivial
  | .time _ => .isTrue trivial
  | .inf => .isTrue trivial
  | .negInf => .isTrue trivial

/-- What is read for a value that is not NULL. -/
def readBack : SIValue → SIValue
  | .bool b => .bool (if b = 0 then 0 else 1)
  | v => v

section Restore

variable {strtod : List UInt8 → Strtod} {t : SIType} {v w : SIValue}

/-- Numbers and strings are read back as they are, and any truth value but 0 as 1. -/
theorem parse_of_type (strtod : List UInt8 → Strtod) (htype : v.type = t)
    (ht : t ∈ exactTypes) :
    siParseValue strtod t (siValueToRMString v) = some (readBack v) := by
  subst htype
  cases v with
  | null => simp [SIValue.type] at ht
  | float f => simp [SIValue.type] at ht
  | double d => simp [SIValue.type] at ht
  | inf => simp [SIValue.type] at ht
  | negInf => simp [SIValue.type] at ht
  | string s => rfl
  | int32 i =>
      have h := parseInt_signedDecimal (int32_bounds i).1 (int32_bounds i).2 .int32
      rwa [Int32.ofInt_toInt] at h
  | int64 i =>
      have h := parseInt_signedDecimal (int64_bounds i).1 (int64_bounds i).2 .int64
      rwa [Int64.ofInt_toInt] at h
  | time i =>
      have h := parseInt_signedDecimal (int64_bounds i).1 (int64_bounds i).2 .time
      rwa [Int64.ofInt_toInt] at h
  | uint u =>
      have h := parseInt_signedDecimal (int64_bounds u.toInt64).1 (int64_bounds u.toInt64).2 .uint
      rwa [uint64_ofInt_toInt64] at h
  | bool b =>
      by_cases hb : b = 0
      · subst hb
        rfl
      · have htext : siValueToRMString (.bool b) = ascii "true" := by
          simp [siValueToRMString, siValueToString, valueText, hb]
          decide
        simp only [htext, readBack, hb, if_false]
        rfl

/-- NULL is written as a word that is no number and no truth value; a string column takes it. -/
theorem parse_null (strtod : List UInt8 → Strtod)
    (ht : t ∈ exactTypes) :
    siParseValue strtod t (siValueToRMString .null) =
      if t = .string then some (.string (ascii "NULL")) else none := by
  simp only [List.mem_cons, List.not_mem_nil, or_false] at ht
  rcases ht with rfl | rfl | rfl | rfl | rfl | rfl <;> rfl

/-- What was written for `v` is read as `w`, a value at the same place, exactly when `w` is `v` and
can be held. -/
theorem parse_eq_some_iff (hv : ValueOk t v) (hw : ValueOk t w) (hplace : v.place = w.place)
    (ht : t ∈ exactTypes) :
    siParseValue strtod t (siValueToRMString v) = some w ↔ v = w ∧ Restorable w := by
  have hcolumn : ColumnType t := by
    simp only [List.mem_cons, List.not_mem_nil, or_false] at ht
    rcases ht with rfl | rfl | rfl | rfl | rfl | rfl <;> decide
  -- A NULL is at no other value's place.
  have hnull : v = .null ↔ w = .null := by
    have hne : ∀ u : SIValue, u.type = t → u.place ≠ SIValue.null.place := by
      intro u hu h
      have hranks : u.rank = SIValue.null.rank := congrArg (fun x => (ofLex x).1) h
      rw [(rank_of_type hcolumn hu).1] at hranks
      cases hranks
    constructor
    · rintro rfl
      rcases hw with rfl | ⟨hwt, _⟩
      · rfl
      · exact absurd hplace.symm (hne w hwt)
    · rintro rfl
      rcases hv with rfl | ⟨hvt, _⟩
      · rfl
      · exact absurd hplace (hne v hvt)
  rcases hv with rfl | ⟨hvt, _⟩
  · obtain rfl := hnull.1 rfl
    rw [parse_null strtod ht]
    by_cases hstring : t = .string <;> simp [hstring, Restorable]
  · rw [parse_of_type strtod hvt ht]
    cases v with
    | bool b =>
        rcases hw with rfl | ⟨hwt, _⟩
        · exact absurd (hnull.2 rfl) (by simp)
        · -- Truth values at one place are the same number.
          obtain ⟨c, rfl⟩ : ∃ c, w = .bool c := by
            cases w <;> simp [SIValue.type, ← hvt] at hwt
            exact ⟨_, rfl⟩
          obtain rfl : b = c := by
            have hkeys : ((b.toInt : Int)) = c.toInt := by
              simpa [SIValue.place, SIValue.placeInType, SIValue.rank] using hplace
            exact Int32.toInt_inj.1 hkeys
          by_cases hb : b = 0
          · simp [hb, readBack, Restorable]
          · simp [hb, readBack, Restorable, eq_comm]
    | _ =>
        constructor
        · intro h
          obtain rfl := Option.some.inj h
          exact ⟨rfl, by first | trivial | simp [← hvt, SIValue.type] at ht⟩
        · rintro ⟨rfl, _⟩
          rfl

end Restore

end Secondary
