import Secondary.Value

/-!
# Spec — `spec.h`, the columns and flags of an index
-/

namespace Secondary

structure SIIndexProperty where
  type : SIType
  flags : UInt32
  name : Option CString

structure SISpec where
  properties : List SIIndexProperty
  flags : UInt32

def siIndexNamed : UInt32 := 0x1

def siIndexUnique : UInt32 := 0x2

namespace SISpec

def numProps (spec : SISpec) : Nat :=
  spec.properties.length

/-- `spec.flags & SI_INDEX_UNIQUE` -/
def isUnique (spec : SISpec) : Bool :=
  decide (spec.flags &&& siIndexUnique ≠ 0)

/-- The types of the columns. -/
def types (spec : SISpec) : List SIType :=
  spec.properties.map SIIndexProperty.type

end SISpec

end Secondary
