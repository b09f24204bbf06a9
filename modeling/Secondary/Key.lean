import Secondary.Value

/-!
# Key — `key.c`, comparators of values and of value tuples

`SIKeyCmpFunc` is the type of the comparator pointers that an index keeps for its columns.  Only
the sign of a comparison is meaningful.  `SICmpMultiKey` compares two tuples column by column, as
far as the shorter one goes.
-/

namespace Secondary

open Lib

/-- `int (*)(void *p1, void *p2, void *ctx)`; the context is not used. -/
abbrev SIKeyCmpFunc : Type :=
  SIValue → SIValue → Exec Int

/-- The handling of NULL and INF that every comparator starts with; `values` compares the rest. -/
def cmpSpecial (v1 v2 : SIValue) (values : Exec Int) : Exec Int :=
  if v1.isNull then
    .ok (if v2.isNull then 0 else 1)
  else if v2.isNull then
    .ok (-1)
  else if v1.isInf || v2.isNegativeInf then
    .ok 1
  else if v2.isInf || v1.isNegativeInf then
    .ok (-1)
  else
    values

/-- `GENERIC_CMP_FUNC_IMPL(F, memb)`, with `lt` for `<` on the type of the member. -/
def genericCmp {α : Type} (memb : SIValue → Exec α) (lt : α → α → Bool) : SIKeyCmpFunc :=
  fun v1 v2 => cmpSpecial v1 v2 do
    let a ← memb v1
    let b ← memb v2
    .ok (if lt a b then -1 else if lt b a then 1 else 0)

def siCmpFloat : SIKeyCmpFunc :=
  genericCmp SIValue.floatval fun a b => placeLt (place32 a) (place32 b)

def siCmpInt : SIKeyCmpFunc :=
  genericCmp SIValue.intval fun a b => decide (a < b)

def siCmpLong : SIKeyCmpFunc :=
  genericCmp SIValue.longval fun a b => decide (a < b)

def siCmpDouble : SIKeyCmpFunc :=
  genericCmp SIValue.doubleval fun a b => placeLt (place64 a) (place64 b)

def siCmpUint : SIKeyCmpFunc :=
  genericCmp SIValue.uintval fun a b => decide (a < b)

def siCmpTime : SIKeyCmpFunc :=
  genericCmp SIValue.timeval fun a b => decide (a < b)

/-- `tolower` in the C locale. -/
def tolower (b : UInt8) : UInt8 :=
  if 65 ≤ b ∧ b ≤ 90 then b + 32 else b

/-- `strncasecmp`: at most `n` bytes, and not past a NUL. -/
def strncasecmp : Nat → List UInt8 → List UInt8 → Int
  | n + 1, a :: as, b :: bs =>
      if tolower a ≠ tolower b then
        ((tolower a).toNat : Int) - (tolower b).toNat
      else if a = 0 then
        0
      else
        strncasecmp n as bs
  | _, _, _ => 0

def siCmpString : SIKeyCmpFunc :=
  fun v1 v2 => cmpSpecial v1 v2 do
    let s1 ← v1.stringval
    let s2 ← v2.stringval
    let cmp := strncasecmp (min s2.length s1.length) s1 s2
    if cmp = 0 ∧ s1.length ≠ s2.length then
      .ok (if s1.length > s2.length then 1 else -1)
    else
      .ok cmp

/-- The `switch` of `SI_NewCompoundIndex`: the comparator of a column of type `t`. -/
def cmpFuncOf : SIType → Exec SIKeyCmpFunc
  | .string => .ok siCmpString
  | .int32 => .ok siCmpInt
  | .int64 => .ok siCmpLong
  | .float => .ok siCmpFloat
  | .double => .ok siCmpDouble
  | .bool => .ok siCmpInt
  | .time => .ok siCmpTime
  | .uint => .ok siCmpUint
  | _ => .error .exit

/-! ## Tuples -/

/-- `SIMultiKey`; its `size` is the length. -/
abbrev SIMultiKey : Type :=
  List SIValue

/-- `SI_NewMultiKey(vals, numvals)`; the number of values is narrowed to 8 bits. -/
def siNewMultiKey (vals : List SIValue) (numvals : Nat) : Exec SIMultiKey :=
  if numvals % 256 ≤ vals.length then
    .ok (vals.take (numvals % 256))
  else
    .error .bounds

/-- `SICmpMultiKey` with the comparators of its context. -/
def siCmpMultiKey : List SIKeyCmpFunc → SIMultiKey → SIMultiKey → Exec Int
  | f :: fs, a :: as, b :: bs => do
      let rc ← f a b
      if rc ≠ 0 then
        .ok rc
      else
        siCmpMultiKey fs as bs
  | [], _ :: _, _ :: _ => .error .bounds
  | _, _, _ => .ok 0

end Secondary
