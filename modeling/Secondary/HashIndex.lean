import Secondary.Aof
import Secondary.Cursor
import Secondary.Query.Parse

/-!
# HashIndex — `hash_index.c`: handlers and sources of ids

IDX.INTO has Redis execute a write command and then brings the index up to date: a hash that was
written is indexed again, a key that was deleted is taken out of the index.  The ids come from the
arguments of the command, or from a cursor.  The index is itself the value of a key, and the module
only has a pointer to it: when the command deletes that key, the pointer leads to memory that has
been freed.
-/

namespace Secondary

open Lib

/-! ## Redis -/

abbrev RedisHash : Type :=
  Finmap fun _ : RedisModuleString => RedisModuleString

/-- The value of a key. -/
inductive RedisObject
  | hash (fields : RedisHash)
  | index (r : RedisIndex)
  | other

abbrev Keyspace : Type :=
  RedisModuleString → Option RedisObject

/-- `RedisModule_CallReplyType`.  NULL is of an unknown type; it is returned for a command that does
not exist or that has another arity. -/
inductive ReplyType
  | unknown
  | string
  | error
  | integer
  | array
  | null
  deriving DecidableEq

/-- `RedisModule_Call`: what a command with its arguments does to the keys, and the type of its
reply. -/
abbrev RedisCall : Type :=
  Keyspace → CString → List RedisModuleString → Keyspace × ReplyType

/-- What a command of the module depends on, apart from its arguments and the keys. -/
structure Host where
  call : RedisCall
  strtod : List UInt8 → Strtod
  now : Int64
  /-- `tok`, as it was left by the lexer's last run. -/
  tok : Token
  /-- The level that is drawn for the `n`-th id. -/
  draw : Nat → Level
  /-- What `malloc` returns for a cursor. -/
  memory : CursorWords

/-- Reading through the pointer to the index, which `RedisModule_ModuleTypeGetValue` returned when
the key was opened. -/
def openedIndex (db : Keyspace) (index : RedisModuleString) : Exec RedisIndex :=
  match db index with
  | some (.index r) => .ok r
  | _ => .error .released

/-- Writing through it. -/
def Keyspace.setIndex (db : Keyspace) (index : RedisModuleString) (r : RedisIndex) : Keyspace :=
  Function.update db index (some (.index r))

/-- `RMUtil_StringEqualsC` -/
def rmUtilStringEqualsC (s1 : RedisModuleString) (s2 : List UInt8) : Bool :=
  decide (s1 = s2)

/-! ## Handlers -/

def redismoduleOk : Int := 0

def redismoduleErr : Int := 1

/-- The handler of a command: the key of the index, the keys of Redis, and the key to index. -/
abbrev IndexedCommandProxy : Type :=
  RedisModuleString → Keyspace → RedisModuleString → Level → Exec (Keyspace × Int)

/-- The value of a column: NULL for a field that is not there, nothing where it is not parsed. -/
def hashValue (strtod : List UInt8 → Strtod) (t : SIType) :
    Option RedisModuleString → Option SIValue
  | none => some .null
  | some val => siParseValue strtod t val

/-- `for (int i = 0; i < idx->spec.numProps; i++)`: the values of the columns, up to the first one
that is not parsed. -/
def hashValues (strtod : List UInt8 → Strtod) (fields : RedisHash) :
    List SIIndexProperty → Exec (Option (List SIValue))
  | [] => .ok (some [])
  | p :: ps => do
      -- A name that is NULL ends the arguments of `RedisModule_HashGet`: `vstr` is not assigned.
      let name ← orFault p.name .unset
      match hashValue strtod p.type (fields.lookup name.bytes) with
      | none => .ok none
      | some v => do
          let vs ← hashValues strtod fields ps
          .ok (vs.map fun vs => v :: vs)

/-- `reindexHashHandler` -/
def reindexHashHandler (strtod : List UInt8 → Strtod) : IndexedCommandProxy :=
  fun index db hkey level =>
    match db hkey with
    | some (.hash fields) => do
        let r ← openedIndex db index
        match ← hashValues strtod fields r.spec.properties with
        | none => .ok (db, redismoduleErr)
        | some vals => do
            let a ← compoundIndexApply r.idx
              [({ type := .chAdd, id := cString hkey, v := vals }, level)]
            -- Where the change is not applied there is only a message in the log.
            .ok (db.setIndex index { r with idx := a.1 }, redismoduleOk)
    | _ => .ok (db, redismoduleErr)

/-- `deleteHandler` -/
def deleteHandler : IndexedCommandProxy :=
  fun index db hkey level => do
    let r ← openedIndex db index
    let a ← compoundIndexApply r.idx [({ type := .chDel, id := cString hkey, v := [] }, level)]
    let db := db.setIndex index { r with idx := a.1 }
    .ok (db, if a.2 ≠ siIndexOk then redismoduleErr else redismoduleOk)

/-! ## Commands -/

/-- `commandDesc` -/
structure CommandDesc where
  name : List UInt8
  handler : IndexedCommandProxy
  variadic : Bool

def supportedHashWriteCommands (strtod : List UInt8 → Strtod) : List CommandDesc :=
  [{ name := ascii "HDEL", handler := reindexHashHandler strtod, variadic := false },
    { name := ascii "HINCRBY", handler := reindexHashHandler strtod, variadic := false },
    { name := ascii "HINCRBYFLOAT", handler := reindexHashHandler strtod, variadic := false },
    { name := ascii "HMSET", handler := reindexHashHandler strtod, variadic := false },
    { name := ascii "HSET", handler := reindexHashHandler strtod, variadic := false },
    { name := ascii "HSETNX", handler := reindexHashHandler strtod, variadic := false },
    { name := ascii "DEL", handler := deleteHandler, variadic := true }]

/-- `HashIndex_GetHandler` -/
def hashIndexGetHandler (strtod : List UInt8 → Strtod) (cmd : RedisModuleString) :
    Option IndexedCommandProxy :=
  ((supportedHashWriteCommands strtod).find? fun d => rmUtilStringEqualsC cmd d.name).map
    CommandDesc.handler

/-- `IdSource` and its context: the keys of a command that are left, or a cursor. -/
inductive IdSource
  | staticIdSource (keys : List RedisModuleString)
  | queryIdSource (c : CursorStruct)

/-- `HashIndex_GetIdsForCommand` -/
def hashIndexGetIdsForCommand (strtod : List UInt8 → Strtod) :
    List RedisModuleString → Option IdSource
  | cmd :: key :: keys =>
      ((supportedHashWriteCommands strtod).find? fun d => decide (strcasecmp cmd d.name = 0)).map
        fun d => .staticIdSource (if d.variadic then key :: keys else [key])
  | _ => none

/-- `HashIndex_GetIdsFromQuery`: the index, to which nothing is written, and the cursor whose ids
are taken, or NULL.  `q` may be NULL. -/
def hashIndexGetIdsFromQuery (memory : CursorWords) (idx : CompoundIndex) :
    Option SIQuery → Exec (CompoundIndex × Option CursorStruct)
  | none => .ok (idx, none)
  | some q => do
      let r ← compoundIndexFindIn memory idx q
      let error ← r.2.error.read .unset
      if error ≠ siCursorOk then do
        siCursorFree r.2
        .ok (idx, none)
      else
        .ok (idx, some r.2)

/-- `queryIdSource`, on the index that the key holds. -/
def queryIdSource (db : Keyspace) (index : RedisModuleString) (c : CursorStruct) :
    Exec (CursorStruct × Option SIId) := do
  let r ← openedIndex db index
  c.callNext r.idx

/-- `tx.ids(tx.ctx)`; a key is cut at its first NUL. -/
def nextId (db : Keyspace) (index : RedisModuleString) :
    IdSource → Exec (IdSource × Option SIId)
  | .staticIdSource [] => .ok (.staticIdSource [], none)
  | .staticIdSource (key :: keys) => .ok (.staticIdSource keys, some (cString key))
  | .queryIdSource c => do
      let next ← queryIdSource db index c
      .ok (.queryIdSource next.1, next.2)

structure IndexedTransaction where
  cmd : IndexedCommandProxy
  ids : IdSource

/-- The first argument that is `$` becomes the id. -/
def substituteId (id : SIId) : List RedisModuleString → List RedisModuleString
  | [] => []
  | arg :: args =>
      if rmUtilStringEqualsC arg (ascii "$") then id.bytes :: args else arg :: substituteId id args

end Secondary
