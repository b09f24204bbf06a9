import Mathlib.Algebra.Group.Nat.Defs
import Secondary.Fault

/-!
# Value — `value.h`, the dynamically typed values of tuples and queries

A `SIValue` is a union with a type tag.  Each constructor carries the member that was written under
that tag, and reading any other member faults; `intval` and `boolval` are one C type under two
names.  Floating-point members are kept as their bit patterns.
-/

namespace Secondary

open Lib

/-! ## Types -/

inductive SIType
  | null
  | string
  | int32
  | int64
  | uint
  | bool
  | float
  | double
  | time
  | inf
  | negInf
  deriving DecidableEq, Repr

/-- The bytes of a C string: there is no NUL before its end. -/
structure CString where
  bytes : List UInt8
  noNul : (0 : UInt8) ∉ bytes
  deriving DecidableEq

abbrev SIId : Type :=
  CString

/-- `strcmp` on the bytes up to the terminators. -/
def strcmpBytes : List UInt8 → List UInt8 → Int
  | [], [] => 0
  | [], b :: _ => -(b.toNat : Int)
  | a :: _, [] => a.toNat
  | a :: as, b :: bs => if a = b then strcmpBytes as bs else (a.toNat : Int) - b.toNat

def strcmp (s t : CString) : Int :=
  strcmpBytes s.bytes t.bytes

theorem strcmpBytes_eq_zero {as bs : List UInt8} (ha : (0 : UInt8) ∉ as) (hb : (0 : UInt8) ∉ bs) :
    strcmpBytes as bs = 0 ↔ as = bs := by
  induction as generalizing bs with
  | nil =>
      cases bs with
      | nil => simp [strcmpBytes]
      | cons b bs =>
          have hne : b ≠ 0 := fun h => hb (by simp [h])
          have : b.toNat ≠ 0 := fun h => hne (UInt8.toNat_inj.1 (by simpa using h))
          simpa [strcmpBytes] using this
  | cons a as ih =>
      cases bs with
      | nil =>
          have hne : a ≠ 0 := fun h => ha (by simp [h])
          have : a.toNat ≠ 0 := fun h => hne (UInt8.toNat_inj.1 (by simpa using h))
          simpa [strcmpBytes] using this
      | cons b bs =>
          have ha' : (0 : UInt8) ∉ as := fun h => ha (by simp [h])
          have hb' : (0 : UInt8) ∉ bs := fun h => hb (by simp [h])
          by_cases hab : a = b
          · simp [strcmpBytes, hab, ih ha' hb']
          · have : (a.toNat : Int) - b.toNat ≠ 0 := by
              intro h
              exact hab (UInt8.toNat_inj.1 (by omega))
            simp [strcmpBytes, hab, this]

/-- Ids are equal when `strcmp` says so. -/
theorem strcmp_eq_zero {s t : CString} : strcmp s t = 0 ↔ s = t := by
  rw [strcmp, strcmpBytes_eq_zero s.noNul t.noNul]
  cases s
  cases t
  simp

/-! ## Values -/

inductive SIValue
  | null
  | string (stringval : List UInt8)
  | int32 (intval : Int32)
  | int64 (longval : Int64)
  | uint (uintval : UInt64)
  | bool (boolval : Int32)
  | float (floatval : UInt32)
  | double (doubleval : UInt64)
  | time (timeval : Int64)
  | inf
  | negInf
  deriving DecidableEq

namespace SIValue

def type : SIValue → SIType
  | null => .null
  | string _ => .string
  | int32 _ => .int32
  | int64 _ => .int64
  | uint _ => .uint
  | bool _ => .bool
  | float _ => .float
  | double _ => .double
  | time _ => .time
  | inf => .inf
  | negInf => .negInf

/-- `SIValue_IsNullPtr` -/
def isNull (v : SIValue) : Bool :=
  decide (v.type = .null)

/-- `SIValue_IsInf` -/
def isInf (v : SIValue) : Bool :=
  decide (v.type = .inf)

/-- `SIValue_IsNegativeInf` -/
def isNegativeInf (v : SIValue) : Bool :=
  decide (v.type = .negInf)

@[simp] theorem isNull_null : null.isNull = true := rfl
@[simp] theorem isNull_inf : inf.isNull = false := rfl
@[simp] theorem isNull_negInf : negInf.isNull = false := rfl
@[simp] theorem isInf_inf : inf.isInf = true := rfl
@[simp] theorem isInf_negInf : negInf.isInf = false := rfl
@[simp] theorem isNegativeInf_inf : inf.isNegativeInf = false := rfl
@[simp] theorem isNegativeInf_negInf : negInf.isNegativeInf = true := rfl

/-! ### Reading a member -/

def stringval : SIValue → Exec (List UInt8)
  | string s => .ok s
  | _ => .error .member

def intval : SIValue → Exec Int32
  | int32 i => .ok i
  | bool b => .ok b
  | _ => .error .member

def longval : SIValue → Exec Int64
  | int64 i => .ok i
  | _ => .error .member

def uintval : SIValue → Exec UInt64
  | uint u => .ok u
  | _ => .error .member

def floatval : SIValue → Exec UInt32
  | float f => .ok f
  | _ => .error .member

def doubleval : SIValue → Exec UInt64
  | double d => .ok d
  | _ => .error .member

def timeval : SIValue → Exec Int64
  | time t => .ok t
  | _ => .error .member

end SIValue

/-! ## Floating-point order -/

/-- The place of an IEEE-754 number among the others, from its bits: sign and magnitude read as an
integer.  A NaN has no place; both zeros have the same. -/
def floatPlace (expBits fracBits bits : Nat) : Option Int :=
  let magnitude := bits % 2 ^ (expBits + fracBits)
  if (2 ^ expBits - 1) * 2 ^ fracBits < magnitude then
    none
  else if bits / 2 ^ (expBits + fracBits) % 2 = 1 then
    some (-(magnitude : Int))
  else
    some magnitude

/-- The place of a `float`. -/
def place32 (bits : UInt32) : Option Int :=
  floatPlace 8 23 bits.toNat

/-- The place of a `double`. -/
def place64 (bits : UInt64) : Option Int :=
  floatPlace 11 52 bits.toNat

/-- `<` on floating-point numbers; with a NaN it is false. -/
def placeLt : Option Int → Option Int → Bool
  | some a, some b => decide (a < b)
  | _, _ => false

namespace SIValue

def NotNaN : SIValue → Prop
  | float f => place32 f ≠ none
  | double d => place64 d ≠ none
  | _ => True

instance : DecidablePred NotNaN
  | null => .isTrue trivial
  | string _ => .isTrue trivial
  | int32 _ => .isTrue trivial
  | int64 _ => .isTrue trivial
  | uint _ => .isTrue trivial
  | bool _ => .isTrue trivial
  | float f => inferInstanceAs (Decidable (place32 f ≠ none))
  | double d => inferInstanceAs (Decidable (place64 d ≠ none))
  | time _ => .isTrue trivial
  | inf => .isTrue trivial
  | negInf => .isTrue trivial

end SIValue

end Secondary
