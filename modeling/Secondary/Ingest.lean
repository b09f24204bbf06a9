import Secondary.AofSpec

/-!
# Ingest — integers as arguments of IDX.INSERT

`_parseInt` reads the integer at the beginning of an argument and narrows it to the member of the
column.  What is behind the digits is not looked at, and neither is the range of the column: an
argument is stored as what it says if and only if it avoids both.
-/

namespace Secondary

open Lib

/-! ## What an argument says -/

/-- The column types whose values are read with `strtoll`. -/
abbrev integerTypes : List SIType :=
  [.int32, .int64, .uint, .time]

/-- The integers that a column can hold. -/
def InColumn : SIType → Int → Prop
  | .int32, i => -2 ^ 31 ≤ i ∧ i < 2 ^ 31
  | .uint, i => 0 ≤ i ∧ i < 2 ^ 64
  | _, i => -2 ^ 63 ≤ i ∧ i < 2 ^ 63

/-- What is accepted is all of the argument, as an integer of the column, and what is not accepted
is not stored. -/
structure StoredFaithfully (strtod : List UInt8 → Strtod) (t : SIType) (str : List UInt8) :
    Prop where
  accepted : ∀ v, siParseValue strtod t str = some v →
    ∃ i, IntegerText str i ∧ InColumn t i ∧ v.type = t ∧ v.integer = some i
  /-- The argument is that of column `n`. -/
  rejected : siParseValue strtod t str = none → ∀ (r : RedisIndex) argv level n p,
    r.spec.properties[n]? = some p → p.type = t → argv[n + 3]? = some str →
    ∃ msg, indexAddCommand strtod (some r) argv level = .ok (some r, .error msg)

/-- The argument begins with an integer of 64 bits, and either goes on behind its digits, or the
integer is none that the column can hold. -/
def Misread (t : SIType) (str : List UInt8) : Prop :=
  ∃ i rest, LeadingInteger str i rest ∧ longMin ≤ i ∧ i ≤ longMax ∧ (rest ≠ [] ∨ ¬InColumn t i)

/-! ## What is stored -/

section Parse

variable {strtod : List UInt8 → Strtod} {t : SIType} {str : List UInt8} {v : SIValue}

theorem siParseValue_eq_parseInt (ht : t ∈ integerTypes) :
    siParseValue strtod t str = parseInt t str := by
  simp only [List.mem_cons, List.not_mem_nil, or_false] at ht
  rcases ht with rfl | rfl | rfl | rfl <;> rfl

theorem exists_intMember (ht : t ∈ integerTypes) (i : Int) : ∃ v, intMember t i = some v := by
  simp only [List.mem_cons, List.not_mem_nil, or_false] at ht
  rcases ht with rfl | rfl | rfl | rfl <;> exact ⟨_, rfl⟩

/-- Within the range of the column, narrowing keeps the number. -/
theorem integer_of_intMember {i : Int} (hi : InColumn t i) (hv : intMember t i = some v) :
    v.type = t ∧ v.integer = some i := by
  cases t with
  | int32 =>
      cases hv
      refine ⟨rfl, congrArg some ?_⟩
      rw [Int32.toInt_ofInt]
      exact Int.bmod_eq_of_le hi.1 hi.2
  | int64 =>
      cases hv
      refine ⟨rfl, congrArg some ?_⟩
      rw [Int64.toInt_ofInt]
      exact Int.bmod_eq_of_le hi.1 hi.2
  | time =>
      cases hv
      refine ⟨rfl, congrArg some ?_⟩
      rw [Int64.toInt_ofInt]
      exact Int.bmod_eq_of_le hi.1 hi.2
  | uint =>
      cases hv
      refine ⟨rfl, congrArg some ?_⟩
      obtain ⟨hlow, hhigh⟩ := hi
      rw [UInt64.ofInt, Int.emod_eq_of_lt hlow hhigh, UInt64.toNat_ofNat', Nat.mod_eq_of_lt] <;>
        omega
  | _ => cases hv

/-- One argument that is not parsed makes the values of all of them fail. -/
theorem parseArgs_eq_none {ps : List SIIndexProperty} {args : List RedisModuleString} {n : Nat}
    {p : SIIndexProperty} (hp : ps[n]? = some p) (harg : args[n]? = some str)
    (hparse : siParseValue strtod p.type str = none) : parseArgs strtod ps args = none := by
  induction n generalizing ps args with
  | zero =>
      cases ps with
      | nil => cases hp
      | cons p' ps =>
          cases args with
          | nil => cases harg
          | cons arg args =>
              cases hp
              cases harg
              simp [parseArgs, hparse]
  | succ n ih =>
      cases ps with
      | nil => simp at hp
      | cons p' ps =>
          cases args with
          | nil => simp at harg
          | cons arg args =>
              have hrest : parseArgs strtod ps args = none := by
                apply ih
                · simpa using hp
                · simpa using harg
              simp [parseArgs, hrest]

/-- IDX.INSERT with an argument that is not parsed changes nothing. -/
theorem indexAddCommand_rejects {r : RedisIndex} {argv : List RedisModuleString} {level : Level}
    {n : Nat} {p : SIIndexProperty} (hp : r.spec.properties[n]? = some p)
    (harg : argv[n + 3]? = some str) (hparse : siParseValue strtod p.type str = none) :
    indexAddCommand strtod (some r) argv level =
      .ok (some r, .error "Invalid value given") := by
  have hlen : n + 3 < argv.length := (List.getElem?_eq_some_iff.1 harg).1
  have hid : argv[2]? = some argv[2] := List.getElem?_eq_getElem (by omega)
  have hargs : parseArgs strtod r.spec.properties (argv.drop 3) = none := by
    apply parseArgs_eq_none hp _ hparse
    rw [List.getElem?_drop, Nat.add_comm, harg]
  rw [indexAddCommand, if_neg (by omega)]
  simp only [hid, orFault, ok_bind, hargs]

end Parse

/-- An argument is stored as what it says, unless something is behind the digits or the integer is
none of the column's. -/
theorem siParseValue_faithful_iff (strtod : List UInt8 → Strtod) {t : SIType}
    (ht : t ∈ integerTypes) (str : List UInt8) :
    StoredFaithfully strtod t str ↔ ¬Misread t str := by
  constructor
  · rintro h ⟨i, rest, hlead, hmin, hmax, hbad⟩
    obtain ⟨v, hv⟩ := exists_intMember ht i
    have hparse : siParseValue strtod t str = some v := by
      rw [siParseValue_eq_parseInt ht, parseInt_eq_some_iff]
      exact ⟨i, rest, hlead, hmin, hmax, hv⟩
    obtain ⟨i', htext, hrange, _, _⟩ := h.accepted v hparse
    have hall : LeadingInteger str i' [] := ⟨str, by simp, htext, by simp⟩
    obtain ⟨rfl, rfl⟩ := hlead.unique hall
    rcases hbad with hrest | hout
    · exact hrest rfl
    · exact hout hrange
  · intro h
    refine ⟨?_, ?_⟩
    · intro v hparse
      rw [siParseValue_eq_parseInt ht, parseInt_eq_some_iff] at hparse
      obtain ⟨i, rest, hlead, hmin, hmax, hv⟩ := hparse
      have hgood : rest = [] ∧ InColumn t i := by
        by_contra hbad
        exact h ⟨i, rest, hlead, hmin, hmax, by tauto⟩
      obtain ⟨rfl, hrange⟩ := hgood
      obtain ⟨text, rfl, htext, _⟩ := hlead
      rw [List.append_nil]
      exact ⟨i, htext, hrange, integer_of_intMember hrange hv⟩
    · rintro hparse r argv level n p hp rfl harg
      exact ⟨_, indexAddCommand_rejects hp harg hparse⟩

/-- ` -7` in a column of INT32. -/
theorem siParseValue_faithful_iff_int :
    StoredFaithfully noStrtod .int32 (ascii " -7") ↔ ¬Misread .int32 (ascii " -7") :=
  siParseValue_faithful_iff noStrtod (by decide) (ascii " -7")

/-- `12abc` is stored as 12. -/
theorem siParseValue_twelveAbc_accepted : ¬StoredFaithfully noStrtod .int32 (ascii "12abc") := by
  intro h
  obtain ⟨i, ⟨blanks, sign, digits, htext, _, hne, hdigits, _⟩, _⟩ :=
    h.accepted (.int32 12) (by decide +kernel)
  -- The last byte would be a digit.
  have hlast : (blanks ++ (sign ++ digits)).getLast? = digits.getLast? := by
    rw [List.getLast?_append_of_ne_nil _ (by simp [hne]), List.getLast?_append_of_ne_nil _ hne]
  obtain ⟨d, hd⟩ := Option.isSome_iff_exists.1 (List.getLast?_isSome.2 hne)
  rw [← htext, hd] at hlast
  obtain rfl : (99 : UInt8) = d := Option.some.inj hlast
  exact absurd (hdigits 99 (List.mem_of_getLast? hd)) (by decide)

end Secondary
