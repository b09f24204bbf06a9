import Secondary.Find
import Secondary.Lib.Codec
import Secondary.Lib.Float

/-!
# Rdb — `index_type.c`, saving an index to RDB and loading it

`RedisModule_Save*` appends an item to the stream and `RedisModule_Load*` takes the next one off it.
Loading an item that is not there, or that was saved as another kind, ends the process.  A loaded
buffer has the bytes that were saved, and is taken to end with a NUL.
-/

namespace Secondary

open Lib

/-! ## Streams -/

inductive RdbItem
  | unsigned (n : Nat)
  | signed (n : Int)
  | double (bits : UInt64)
  | stringBuffer (bytes : List UInt8)
  deriving DecidableEq

abbrev RdbReader (α : Type) : Type :=
  Reader Fault RdbItem α

/-- `RedisModule_LoadUnsigned` -/
def loadUnsigned : RdbReader Nat := do
  match ← nextItem .exit with
  | .unsigned n => pure n
  | _ => throw .exit

/-- `RedisModule_LoadSigned` -/
def loadSigned : RdbReader Int := do
  match ← nextItem .exit with
  | .signed n => pure n
  | _ => throw .exit

/-- `RedisModule_LoadDouble` -/
def loadDouble : RdbReader UInt64 := do
  match ← nextItem .exit with
  | .double bits => pure bits
  | _ => throw .exit

/-- `RedisModule_LoadStringBuffer` -/
def loadStringBuffer : RdbReader (List UInt8) := do
  match ← nextItem .exit with
  | .stringBuffer bytes => pure bytes
  | _ => throw .exit

/-- A buffer where it is used as a C string, which ends at the first NUL.  One is taken to follow
the bytes of a buffer. -/
def cString (bytes : List UInt8) : CString where
  bytes := bytes.takeWhile fun b => decide (b ≠ 0)
  noNul := by
    intro h
    simpa using List.mem_takeWhile_imp h

/-- A buffer without a zero byte is the string it is read as. -/
theorem cString_bytes (s : CString) : cString s.bytes = s := by
  obtain ⟨bytes, noNul⟩ := s
  have htake : bytes.takeWhile (fun b => decide (b ≠ 0)) = bytes := by
    refine List.takeWhile_eq_self_iff.2 fun b hb => ?_
    rw [decide_eq_true_eq]
    rintro rfl
    exact noNul hb
  simp only [cString, htake]

theorem cString_bytes_of_notMem {bytes : List UInt8} (h : 0 ∉ bytes) :
    (cString bytes).bytes = bytes := by
  have hbytes := cString_bytes ⟨bytes, h⟩
  exact congrArg CString.bytes hbytes

/-! ## Types as integers -/

namespace SIType

def code : SIType → Nat
  | null => 0
  | string => 0x001
  | int32 => 0x002
  | int64 => 0x004
  | uint => 0x008
  | bool => 0x010
  | float => 0x020
  | double => 0x040
  | time => 0x080
  | inf => 0x100
  | negInf => 0x200

def all : List SIType :=
  [null, string, int32, int64, uint, bool, float, double, time, inf, negInf]

/-- The type with a 32-bit code, if it is one. -/
def ofCode (c : Nat) : Option SIType :=
  all.find? fun t => decide (t.code = c % 2 ^ 32)

theorem ofCode_code (t : SIType) : ofCode t.code = some t := by
  cases t <;> rfl

end SIType

/-! ## Values -/

/-- `__writeValue` -/
def writeValue (v : SIValue) : List RdbItem :=
  .unsigned v.type.code ::
    match v with
    | .string s => [.stringBuffer s]
    | .int32 i => [.signed i.toInt]
    | .int64 i => [.signed i.toInt]
    | .uint u => [.unsigned u.toNat]
    -- An `int32_t` passed as `uint64_t`.
    | .bool b => [.unsigned (b.toInt % 2 ^ 64).toNat]
    | .float f => [.double (UInt64.ofNat (widen f.toNat))]
    | .double d => [.double d]
    | .time t => [.signed t.toInt]
    | _ => []

/-- The `switch` of `__readValue`. -/
def readMember : Option SIType → RdbReader SIValue
  | some .string => loadStringBuffer >>= fun s => pure (.string s)
  | some .int32 => loadSigned >>= fun n => pure (.int32 (Int32.ofInt n))
  | some .int64 => loadSigned >>= fun n => pure (.int64 (Int64.ofInt n))
  | some .uint => loadUnsigned >>= fun n => pure (.uint (UInt64.ofNat n))
  | some .bool => loadUnsigned >>= fun n => pure (.bool (Int32.ofInt n))
  | some .float => loadDouble >>= fun d => pure (.float (UInt32.ofNat (narrow d.toNat)))
  | some .double => loadDouble >>= fun d => pure (.double d)
  | some .time => loadSigned >>= fun n => pure (.time (Int64.ofInt n))
  | _ => pure .null

/-- `__readValue` -/
def readValue : RdbReader SIValue :=
  loadUnsigned >>= fun t => readMember (SIType.ofCode t)

/-! ## The index of a key -/

/-- `SIIndexKind` -/
inductive SIIndexKind
  | abstractIndex
  | hashIndex
  /-- Any other value of the enumeration's integer type. -/
  | unknown (code : UInt32) (other : code ≠ 0 ∧ code ≠ 1)
  deriving DecidableEq

def SIIndexKind.code : SIIndexKind → Nat
  | .abstractIndex => 0
  | .hashIndex => 1
  | .unknown code _ => code.toNat

def SIIndexKind.ofCode (c : Nat) : SIIndexKind :=
  if h : UInt32.ofNat c = 0 then .abstractIndex
  else if h' : UInt32.ofNat c = 1 then .hashIndex
  else .unknown (UInt32.ofNat c) ⟨h, h'⟩

theorem SIIndexKind.ofCode_code (kind : SIIndexKind) : ofCode kind.code = kind := by
  cases kind with
  | abstractIndex => rfl
  | hashIndex => rfl
  | unknown code other => simp [ofCode, SIIndexKind.code, other.1, other.2]

structure RedisIndex where
  kind : SIIndexKind
  flags : UInt32
  spec : SISpec
  idx : CompoundIndex

/-- `NewRedisIndex` -/
def newRedisIndex (kind : SIIndexKind) (flags : UInt32) (spec : SISpec) : Exec RedisIndex := do
  let idx ← siNewCompoundIndex spec
  .ok { kind := kind, flags := flags, spec := spec, idx := idx }

/-! ## Specs -/

/-- `spec.flags & SI_INDEX_NAMED` -/
def isNamed (flags : UInt32) : Bool :=
  decide (flags &&& siIndexNamed ≠ 0)

/-- The name of a column; without one the empty string is saved. -/
def saveName (named : Bool) (p : SIIndexProperty) : List RdbItem :=
  if named then [.stringBuffer ((p.name.map CString.bytes).getD [])] else []

def saveProperty (named : Bool) (p : SIIndexProperty) : List RdbItem :=
  saveName named p ++ [.signed p.type.code, .signed p.flags.toInt32.toInt]

/-- `__redisIndex_SaveSpec` -/
def saveSpec (spec : SISpec) : List RdbItem :=
  .unsigned spec.flags.toNat :: .unsigned spec.numProps ::
    spec.properties.flatMap (saveProperty (isNamed spec.flags))

/-- The name of a column.  What `LoadStringBuffer` returns is taken to end with a NUL, as the
documentation of Redis does not say. -/
def loadName (named : Bool) : RdbReader (Option CString) :=
  if named then
    loadStringBuffer >>= fun s => pure (some (cString s))
  else
    pure none

def loadProperty (named : Bool) : RdbReader SIIndexProperty := do
  let name ← loadName named
  let type ← loadSigned
  let flags ← loadSigned
  -- A type that is none ends the process when the index is made.
  let type ← StateT.lift (orFault (SIType.ofCode (type % 2 ^ 32).toNat) .exit)
  pure { type := type, flags := (Int32.ofInt flags).toUInt32, name := name }

/-- `__redisIndex_LoadSpec` -/
def loadSpec : RdbReader SISpec := do
  let flags ← loadUnsigned
  let numProps ← loadUnsigned
  let properties ← readMany (loadProperty (isNamed (UInt32.ofNat flags))) numProps
  pure { properties := properties, flags := UInt32.ofNat flags }

/-! ## Records -/

/-- `for (int i = 0; i < spec.numProps; i++) __writeValue(...)` -/
def saveValues : Nat → SIMultiKey → Exec (List RdbItem)
  | 0, _ => .ok []
  | n + 1, mk => do
      let v ← orFault mk.head? .bounds
      let rest ← saveValues n mk.tail
      .ok (writeValue v ++ rest)

/-- `__redisIndex_RdbVisitor` -/
def rdbVisitor (idx : CompoundIndex) (numProps : Nat) (id : SIId) (key : Option KeyRef) :
    Exec (List RdbItem) := do
  let key ← orFault key .null
  let mk ← readKey idx.keys key
  let values ← saveValues numProps mk
  .ok (.stringBuffer id.bytes :: values)

/-- The calls of the visitor one after the other. -/
def saveRecords (idx : CompoundIndex) (numProps : Nat) :
    List (SIId × Option KeyRef) → Exec (List RdbItem)
  | [] => .ok []
  | v :: vs => do
      let record ← rdbVisitor idx numProps v.1 v.2
      let rest ← saveRecords idx numProps vs
      .ok (record ++ rest)

/-- `__redisIndex_SaveIndex` -/
def saveIndex (r : RedisIndex) : Exec (List RdbItem) := do
  let len := compoundIndexLen r.idx
  let visits ← compoundIndexTraverse r.idx
  let records ← saveRecords r.idx r.spec.numProps visits
  .ok (.unsigned len :: records)

/-- An id and the values of its tuple.  The id is saved without its NUL, and what is loaded is taken
to end with one, as the documentation of Redis does not say. -/
def loadRecord (numProps : Nat) : RdbReader (SIId × List SIValue) := do
  let id ← loadStringBuffer
  let vals ← readMany readValue numProps
  pure (cString id, vals)

/-- `while (elements--)`: every record is applied as an ADD, whatever its result; `draw n` is the
level that is drawn if it makes a node. -/
def loadRecords (draw : Nat → Level) (numProps : Nat) :
    Nat → CompoundIndex → RdbReader CompoundIndex
  | 0, idx => pure idx
  | n + 1, idx => do
      let record ← loadRecord numProps
      let r ← StateT.lift (compoundIndexApply idx
        [({ type := .chAdd, id := record.1, v := record.2 }, draw n)])
      loadRecords draw numProps n r.1

/-- `__redisIndex_LoadIndex` -/
def loadIndex (draw : Nat → Level) (spec : SISpec) : RdbReader CompoundIndex := do
  let idx ← StateT.lift (siNewCompoundIndex spec)
  let elements ← loadUnsigned
  loadRecords draw spec.numProps elements idx

/-! ## The whole index -/

/-- `RedisIndex_RdbSave` -/
def redisIndexRdbSave (r : RedisIndex) : Exec (List RdbItem) := do
  let records ← saveIndex r
  .ok (.unsigned r.kind.code :: .unsigned r.flags.toNat :: (saveSpec r.spec ++ records))

/-- `RedisIndex_RdbLoad`; NULL for an encoding that is not known. -/
def redisIndexRdbLoad (draw : Nat → Level) (encver : Int) : RdbReader (Option RedisIndex) :=
  if encver ≠ 0 then
    pure none
  else do
    let kind ← loadUnsigned
    let flags ← loadUnsigned
    let spec ← loadSpec
    let idx ← loadIndex draw spec
    pure (some
      { kind := SIIndexKind.ofCode kind
        flags := UInt32.ofNat flags
        spec := spec
        idx := idx })

end Secondary
