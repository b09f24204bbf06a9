import Secondary.ParseValue

/-!
# Aof — the commands of an AOF rewrite, and IDX.INSERT

`RedisIndex_AofRewrite` emits an IDX.CREATE and, from the visitor of a full walk, an IDX.INSERT for
every call.  `IndexAddCommand` is what executes an IDX.INSERT.
-/

namespace Secondary

open Lib

/-! ## IDX.INSERT -/

/-- The reply of a command. -/
inductive Reply
  | wrongArity
  | error (msg : String)
  | simpleString (msg : String)
  deriving DecidableEq

/-- `REDISMODULE_ERRORMSG_WRONGTYPE` -/
def errormsgWrongtype : String :=
  "WRONGTYPE Operation against a key holding the wrong kind of value"

/-- The values of the arguments, in the types of the columns; nothing where one is not parsed or
there is no column for it. -/
def parseArgs (strtod : List UInt8 → Strtod) :
    List SIIndexProperty → List RedisModuleString → Option (List SIValue)
  | _, [] => some []
  | [], _ :: _ => none
  | p :: ps, vstr :: args => do
      let val ← siParseValue strtod p.type vstr
      let vals ← parseArgs strtod ps args
      some (val :: vals)

/-- `IndexAddCommand`, where `opened` is the index at the key, if there is one. -/
def indexAddCommand (strtod : List UInt8 → Strtod) (opened : Option RedisIndex)
    (argv : List RedisModuleString) (level : Level) : Exec (Option RedisIndex × Reply) :=
  if argv.length < 4 then
    .ok (opened, .wrongArity)
  else
    match opened with
    | none => .ok (none, .error errormsgWrongtype)
    | some r => do
        let id ← orFault argv[2]? .bounds
        -- The values come after the command, the name of the index and the id.
        match parseArgs strtod r.spec.properties (argv.drop 3) with
        | none => .ok (some r, .error "Invalid value given")
        | some vals => do
            let a ← compoundIndexApply r.idx
              [({ type := .chAdd, id := cString id, v := vals }, level)]
            if a.2 ≠ siIndexOk then
              .ok (some { r with idx := a.1 }, .error "Could not apply change to index")
            else
              .ok (some { r with idx := a.1 }, .simpleString "OK")

/-! ## Rewriting -/

/-- `for (int i = 0; i < spec.numProps; i++) Vector_Push(args, siValueToRMString(...))` -/
def aofValues : Nat → SIMultiKey → Exec (List RedisModuleString)
  | 0, _ => .ok []
  | n + 1, mk => do
      let v ← orFault mk.head? .bounds
      let rest ← aofValues n mk.tail
      .ok (siValueToRMString v :: rest)

/-- `__redisIndex_AofVisitor`: the IDX.INSERT on `key` for one call. -/
def aofVisitor (key : RedisModuleString) (idx : CompoundIndex) (numProps : Nat) (id : SIId)
    (obj : Option KeyRef) : Exec (List RedisModuleString) := do
  let obj ← orFault obj .null
  let mk ← readKey idx.keys obj
  let values ← aofValues numProps mk
  .ok (ascii "IDX.INSERT" :: key :: id.bytes :: values)

/-- The calls of the visitor one after the other. -/
def aofRecords (key : RedisModuleString) (idx : CompoundIndex) (numProps : Nat) :
    List (SIId × Option KeyRef) → Exec (List (List RedisModuleString))
  | [] => .ok []
  | v :: vs => do
      let record ← aofVisitor key idx numProps v.1 v.2
      let rest ← aofRecords key idx numProps vs
      .ok (record :: rest)

/-- `RedisIndex_AofRewrite`: the commands that it emits. -/
def redisIndexAofRewrite (key : RedisModuleString) (r : RedisIndex) :
    Exec (List (List RedisModuleString)) := do
  let schema ← aofSchema r.kind r.spec
  let visits ← compoundIndexTraverse r.idx
  let records ← aofRecords key r.idx r.spec.numProps visits
  .ok (createCommand key schema :: records)

end Secondary
