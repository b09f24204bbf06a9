import Mathlib.Data.Finmap
import Secondary.Key
import Secondary.Spec
import Secondary.Skiplist.Basic

/-!
# Index — `index.c`, the compound index and its changes

A compound index keeps every id twice: in the skiplist, under a tuple of values, and in the
reverse index, which maps the id to the tuple it was stored under.  Tuples are allocated one by
one; the skiplist and the reverse index hold references to them, and a node keeps the reference of
the id it was created for.
-/

namespace Secondary

open Lib

/-- A pointer to a `SIMultiKey`. -/
abbrev KeyRef : Type :=
  Nat

structure CompoundIndex where
  spec : SISpec
  cmpFuncs : List SIKeyCmpFunc
  numFuncs : UInt8
  sl : Skiplist KeyRef SIId
  length : Nat
  /-- `SIReverseIndex`, a khash map on C strings. -/
  ri : Finmap fun _ : SIId => KeyRef
  /-- The tuples that have been allocated and not freed. -/
  keys : Store SIMultiKey

/-! ## Results -/

def siIndexOk : Int := 0

def siIndexError : Int := -1

def siIndexDuplicateKey : Int := -2

def siIndexNotfound : Int := -3

/-! ## Comparing through pointers -/

def readKey (keys : Store SIMultiKey) (k : KeyRef) : Exec SIMultiKey :=
  orFault (keys.cell k) .released

/-- `SICmpMultiKey` on the key of a node and another key of the index. -/
def compareKeys (fs : List SIKeyCmpFunc) (keys : Store SIMultiKey) (p1 p2 : KeyRef) : Exec Int := do
  let mk1 ← readKey keys p1
  let mk2 ← readKey keys p2
  siCmpMultiKey fs mk1 mk2

/-- `SICmpMultiKey` on the key of a node and a bound that the query plan owns. -/
def compareBound (fs : List SIKeyCmpFunc) (keys : Store SIMultiKey) (p1 : KeyRef)
    (bound : SIMultiKey) : Exec Int := do
  let mk1 ← readKey keys p1
  siCmpMultiKey fs mk1 bound

namespace CompoundIndex

/-- `sl->compare` on two keys of the index. -/
def compare (idx : CompoundIndex) : KeyRef → KeyRef → Exec Int :=
  compareKeys idx.cmpFuncs idx.keys

/-- `free(key)` -/
def freeKey (idx : CompoundIndex) (key : KeyRef) : Exec CompoundIndex := do
  let _ ← readKey idx.keys key
  .ok { idx with keys := idx.keys.free key }

end CompoundIndex

/-! ## Creating an index -/

/-- `for (u_int8_t i = 0; i < spec.numProps; i++)`: the comparators of the columns. -/
def fillCmpFuncs (properties : List SIIndexProperty) :
    Nat → UInt8 → List SIKeyCmpFunc → Exec (List SIKeyCmpFunc)
  | 0, _, _ => .error .diverges
  | fuel + 1, i, fs =>
      if i.toNat < properties.length then do
        let p ← orFault properties[i.toNat]? .bounds
        let f ← cmpFuncOf p.type
        fillCmpFuncs properties fuel (i + 1) (fs ++ [f])
      else
        .ok fs

/-- The counter of the loop has 256 values, so a loop of more rounds than that does not end. -/
def siNewCompoundIndex (spec : SISpec) : Exec CompoundIndex := do
  let cmpFuncs ← fillCmpFuncs spec.properties 257 0 []
  .ok
    { spec := spec
      cmpFuncs := cmpFuncs
      numFuncs := UInt8.ofNat spec.numProps
      sl := skiplistCreate KeyRef SIId
      length := 0
      ri := ∅
      keys := Store.empty }

/-! ## Changes -/

inductive SIChangeType
  | chAdd
  | chDel
  /-- Any other value of the enumeration's integer type. -/
  | unknown
  deriving DecidableEq, Repr

structure SIChange where
  type : SIChangeType
  id : SIId
  v : List SIValue

/-- What deleting an id and replacing its entry have in common. -/
def dropEntry (idx : CompoundIndex) (id : SIId) (oldkey : KeyRef) : Exec CompoundIndex := do
  let r ← skiplistDelete idx.compare strcmp idx.sl oldkey (some id)
  let idx ← { idx with sl := r.1 }.freeKey oldkey
  .ok { idx with length := idx.length - 1 }

/-- `compoundIndex_applyDel` -/
def compoundIndexApplyDel (idx : CompoundIndex) (id : SIId) : Exec (CompoundIndex × Int) :=
  match idx.ri.lookup id with
  | none => .ok (idx, siIndexNotfound)
  | some oldkey => do
      let idx ← dropEntry idx id oldkey
      .ok ({ idx with ri := idx.ri.erase id }, siIndexOk)

/-- `key = SI_NewMultiKey(ch.v.vals, ch.v.len)` -/
def allocKey (idx : CompoundIndex) (vals : List SIValue) : Exec (CompoundIndex × KeyRef) := do
  let mk ← siNewMultiKey vals vals.length
  .ok ({ idx with keys := idx.keys.alloc mk }, idx.keys.next)

/-- The entries of `id` under `key`, in the reverse index and in the skiplist. -/
def storeEntry (idx : CompoundIndex) (id : SIId) (key : KeyRef) (level : Level) :
    Exec CompoundIndex := do
  let sl ← skiplistInsert idx.compare strcmp idx.sl key id level
  .ok { idx with sl := sl, ri := idx.ri.insert id key, length := idx.length + 1 }

/-- `if (exists)`: drop the old entry of the id.  The reverse index keeps it until it is
overwritten. -/
def dropExisting (idx : CompoundIndex) (id : SIId) : Exec CompoundIndex :=
  match idx.ri.lookup id with
  | none => .ok idx
  | some oldkey => dropEntry idx id oldkey

/-- The second half of `compoundIndex_applyAdd`: replace the old entry of the id, if it has one.
A unique index has allocated the key already. -/
def replaceEntry (idx : CompoundIndex) (id : SIId) (vals : List SIValue) (key : Option KeyRef)
    (level : Level) : Exec (CompoundIndex × Int) := do
  let idx ← dropExisting idx id
  let r ←
    match key with
    | some key => .ok (idx, key)
    | none => allocKey idx vals
  let idx ← storeEntry r.1 id r.2 level
  .ok (idx, siIndexOk)

/-- `compoundIndex_applyAdd` -/
def compoundIndexApplyAdd (idx : CompoundIndex) (id : SIId) (vals : List SIValue) (level : Level) :
    Exec (CompoundIndex × Int) :=
  if idx.spec.isUnique then do
    let r ← allocKey idx vals
    let idx := r.1
    match ← skiplistFind idx.compare idx.sl r.2 with
    | some n => do
        let x ← idx.sl.nodes.node n
        let val ← orFault x.vals[0]? .bounds
        -- The key was made for the search alone.
        let idx ← idx.freeKey r.2
        if strcmp val id = 0 then
          -- The id has a tuple that compares equal, and keeps it.
          .ok (idx, siIndexOk)
        else
          .ok (idx, siIndexDuplicateKey)
    | none => replaceEntry idx id vals (some r.2) level
  else
    replaceEntry idx id vals none level

/-- One round of the loop of `compoundIndex_Apply`: the result code of one change. -/
def compoundIndexApplyChange (idx : CompoundIndex) (ch : SIChange) (level : Level) :
    Exec (CompoundIndex × Int) :=
  match ch.type with
  | .chAdd =>
      if ch.v.length ≠ idx.numFuncs.toNat then
        .ok (idx, siIndexError)
      else
        compoundIndexApplyAdd idx ch.id ch.v level
  | .chDel => compoundIndexApplyDel idx ch.id
  | .unknown => .ok (idx, siIndexError)

/-- `compoundIndex_Apply`.  Each change comes with the level that is drawn if it makes a node. -/
def compoundIndexApply (idx : CompoundIndex) :
    List (SIChange × Level) → Exec (CompoundIndex × Int)
  | [] => .ok (idx, siIndexOk)
  | ch :: cs => do
      let r ← compoundIndexApplyChange idx ch.1 ch.2
      if r.2 ≠ siIndexOk ∧ r.2 ≠ siIndexNotfound then
        .ok r
      else
        compoundIndexApply r.1 cs

/-- `compoundIndex_Len` -/
def compoundIndexLen (idx : CompoundIndex) : Nat :=
  idx.length

end Secondary
