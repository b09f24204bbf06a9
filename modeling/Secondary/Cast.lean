import Secondary.ParseValue

/-!
# Cast — `value.c`, converting a constant to the type of a column

A cast changes a value in place and returns 1, or leaves it alone and returns 0.  The model returns
the new value, or nothing.  C does not define the conversion of a `double` to an integer type that
cannot hold it; what the machine makes of it is a parameter, as `strtod` is.
-/

namespace Secondary

open Lib

/-! ## The casts -/

/-- What the casts take from outside the module. -/
structure CastEnv where
  strtod : List UInt8 → Strtod
  /-- A `double` as a number of an integer type that cannot hold it. -/
  outOfRange : SIType → UInt64 → Int

/-- The conversion of a `double` to the integer type `t`, which has the numbers from `lo` to `hi`. -/
def doubleToInt (env : CastEnv) (t : SIType) (lo hi : Int) (d : UInt64) : Int :=
  match truncate d.toNat with
  | some i => if lo ≤ i ∧ i ≤ hi then i else env.outOfRange t d
  | none => env.outOfRange t d

/-- `SI_LongVal_Cast` -/
def siLongValCast (v : SIValue) (type : SIType) : Option SIValue :=
  match v with
  | .int64 longval =>
      match type with
      | .int64 => some v
      | .int32 => some (.int32 longval.toInt32)
      | .bool => some (.bool (if longval ≠ 0 then 1 else 0))
      | .uint => some (.uint longval.toUInt64)
      | .float => some (.float (UInt32.ofNat (ofInteger 8 23 longval.toInt)))
      | .double => some (.double (UInt64.ofNat (ofInteger 11 52 longval.toInt)))
      -- The buffer has 21 bytes.
      | .string => some (.string ((signedDecimal longval.toInt).take 20))
      | .time => some (.time longval)
      | _ => none
  | _ => none

/-- `SI_DoubleVal_Cast` -/
def siDoubleValCast (env : CastEnv) (v : SIValue) (type : SIType) : Option SIValue :=
  match v with
  | .double d =>
      match type with
      | .double => some v
      | .int64 => some (.int64 (Int64.ofInt (doubleToInt env type longMin longMax d)))
      | .int32 => some (.int32 (Int32.ofInt (doubleToInt env type (-2 ^ 31) (2 ^ 31 - 1) d)))
      -- A NaN is not equal to 0.
      | .bool => some (.bool (if place64 d ≠ some 0 then 1 else 0))
      | .uint => some (.uint (UInt64.ofInt (doubleToInt env type 0 (2 ^ 64 - 1) d)))
      | .float => some (.float (UInt32.ofNat (narrow d.toNat)))
      -- The buffer has 256 bytes.
      | .string => some (.string ((fixedText 17 d.toNat).take 255))
      | .time => some (.time (Int64.ofInt (doubleToInt env type longMin longMax d)))
      | _ => none
  | _ => none

/-- `SI_StringVal_Cast` -/
def siStringValCast (env : CastEnv) (v : SIValue) (type : SIType) : Option SIValue :=
  match v with
  | .string s =>
      match type with
      | .string => some v
      -- By default the parsing function is used.
      | _ => siParseValue env.strtod type s
  | _ => none

/-! ## What a cast makes -/

/-- What `_parseFloat` makes is of the type asked for. -/
theorem parseFloat_type {strtod : List UInt8 → Strtod} {t : SIType} {str : List UInt8}
    {v : SIValue} (h : parseFloat strtod t str = some v) : v.type = t := by
  simp only [parseFloat] at h
  split at h
  · cases h
  cases t <;> first
    | (obtain rfl := Option.some.inj h; rfl)
    | cases h

/-- What is parsed for a type is of that type, for the floating-point types too. -/
theorem siParseValue_type {strtod : List UInt8 → Strtod} {t : SIType} {str : List UInt8}
    {v : SIValue} (h : siParseValue strtod t str = some v) : v.type = t := by
  by_cases hexact : t ∈ exactTypes
  · exact (parse_type hexact h).1
  · cases t with
    | float => exact parseFloat_type h
    | double => exact parseFloat_type h
    | null => cases h
    | inf => cases h
    | negInf => cases h
    | _ => exact absurd (by simp) hexact

section CastTypes

variable {env : CastEnv} {v w : SIValue} {t : SIType}

theorem siLongValCast_type (h : siLongValCast v t = some w) : w.type = t := by
  cases v with
  | int64 i =>
      cases t <;> first
        | (obtain rfl := Option.some.inj h; rfl)
        | cases h
  | _ => cases h

theorem siDoubleValCast_type (h : siDoubleValCast env v t = some w) : w.type = t := by
  cases v with
  | double d =>
      cases t <;> first
        | (obtain rfl := Option.some.inj h; rfl)
        | cases h
  | _ => cases h

/-- For another column a string is parsed. -/
theorem siStringValCast_of_ne {s : List UInt8} (h : t ≠ .string) :
    siStringValCast env (.string s) t = siParseValue env.strtod t s := by
  cases t with
  | string => exact absurd rfl h
  | _ => rfl

theorem siStringValCast_type (h : siStringValCast env v t = some w) : w.type = t := by
  cases v with
  | string s =>
      by_cases ht : t = .string
      · subst ht
        obtain rfl := Option.some.inj h
        rfl
      · rw [siStringValCast_of_ne ht] at h
        exact siParseValue_type h
  | _ => cases h

/-- A number can be cast to the type of any column. -/
theorem siLongValCast_isSome (i : Int64) : (siLongValCast (.int64 i) t).isSome ↔ ColumnType t := by
  cases t <;> simp [siLongValCast, ColumnType]

theorem siDoubleValCast_isSome (d : UInt64) :
    (siDoubleValCast env (.double d) t).isSome ↔ ColumnType t := by
  cases t <;> simp [siDoubleValCast, ColumnType]

end CastTypes

end Secondary
