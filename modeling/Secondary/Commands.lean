import Secondary.CursorMemory

/-!
# Commands — `module.c`, the commands of the module on the keys of Redis

IDX.CREATE, IDX.INSERT, IDX.DEL, IDX.CARD and IDX.SELECT on a keyspace, and what else can happen to
a key between two of them: Redis removes or replaces its value, or takes an index through its RDB
form, as it does when it is started again.
-/

namespace Secondary

open Lib

/-! ## Replies -/

/-- What a command of the module sends. -/
inductive ModuleReply
  | wrongArity
  | error (msg : List UInt8)
  | simpleString (msg : List UInt8)
  | longLong (n : Nat)
  | array (ids : List SIId)

def Reply.sent : Reply → ModuleReply
  | .wrongArity => .wrongArity
  | .error msg => .error (ascii msg)
  | .simpleString msg => .simpleString (ascii msg)

def SelectReply.sent : SelectReply → ModuleReply
  | .wrongArity => .wrongArity
  | .error msg => .error msg
  | .array ids => .array ids

/-! ## Commands -/

/-- `RedisModule_OpenKey` and `RedisModule_ModuleTypeGetValue` -/
def Keyspace.indexAt (db : Keyspace) (key : RedisModuleString) : Option RedisIndex :=
  match db key with
  | some (.index r) => some r
  | _ => none

/-- `CreateIndexCommand` -/
def createIndexCommand (db : Keyspace) (argv : List RedisModuleString) :
    Exec (Keyspace × ModuleReply) :=
  if argv.length < 4 then
    .ok (db, .wrongArity)
  else do
    match ← siParseSpec argv with
    | none => .ok (db, .error (ascii "Invalid schema"))
    | some (kind, spec) => do
        let key ← orFault argv[1]? .bounds
        match db key with
        | some _ => .ok (db, .error (ascii errormsgWrongtype))
        | none => do
            let idx ← newRedisIndex kind 0 spec
            .ok (db.setIndex key idx, .simpleString (ascii "OK"))

/-- `IndexAddCommand`, which is IDX.INSERT. -/
def indexInsertCommand (strtod : List UInt8 → Strtod) (level : Level) (db : Keyspace)
    (argv : List RedisModuleString) : Exec (Keyspace × ModuleReply) :=
  if argv.length < 4 then
    .ok (db, .wrongArity)
  else do
    let key ← orFault argv[1]? .bounds
    let r ← indexAddCommand strtod (db.indexAt key) argv level
    match r.1 with
    | some idx => .ok (db.setIndex key idx, r.2.sent)
    | none => .ok (db, r.2.sent)

/-- `SI_NewDelChange`; no level is drawn for it. -/
def siNewDelChange (level : Level) (id : RedisModuleString) : SIChange × Level :=
  ({ type := .chDel, id := cString id, v := [] }, level)

/-- `IndexDelCommand` -/
def indexDelCommand (level : Level) (db : Keyspace) (argv : List RedisModuleString) :
    Exec (Keyspace × ModuleReply) :=
  if argv.length < 3 then
    .ok (db, .wrongArity)
  else do
    let key ← orFault argv[1]? .bounds
    match db key with
    | some (.index r) => do
        let a ← compoundIndexApply r.idx ((argv.drop 2).map (siNewDelChange level))
        let db := db.setIndex key { r with idx := a.1 }
        if a.2 ≠ siIndexOk then
          .ok (db, .error (ascii "Could not apply change to index"))
        else
          .ok (db, .simpleString (ascii "OK"))
    | _ => .ok (db, .error (ascii errormsgWrongtype))

/-- `IndexCardinalityCommand` -/
def indexCardinalityCommand (db : Keyspace) (argv : List RedisModuleString) :
    Exec (Keyspace × ModuleReply) :=
  if argv.length ≠ 2 then
    .ok (db, .wrongArity)
  else do
    let key ← orFault argv[1]? .bounds
    match db key with
    | none => .ok (db, .longLong 0)
    | some (.index r) => .ok (db, .longLong (compoundIndexLen r.idx))
    | some _ => .ok (db, .error (ascii errormsgWrongtype))

/-! ## What happens to a key -/

/-- A value that is no index. -/
inductive PlainObject
  | hash (fields : RedisHash)
  | other

def PlainObject.object : PlainObject → RedisObject
  | hash fields => .hash fields
  | other => .other

/-- A command of the module, or one of Redis after which a key has another value, or none. -/
inductive Command
  | create (argv : List RedisModuleString)
  | insert (argv : List RedisModuleString)
  | del (argv : List RedisModuleString)
  | card (argv : List RedisModuleString)
  /-- `tok` is what the lexer's last run has left. -/
  | select (now : Int64) (tok : Token) (argv : List RedisModuleString)
  | overwrite (key : RedisModuleString) (value : Option PlainObject)

/-- The value of a key is saved and loaded.  Where it cannot be loaded, Redis does not start.  As in
`loadName` and `loadRecord`, a buffer that Redis returns is taken to end with a NUL, as its
documentation does not say. -/
def reloadKey (draw : Nat → Level) (db : Keyspace) (key : RedisModuleString) : Exec Keyspace :=
  match db key with
  | some (.index r) => do
      let io ← redisIndexRdbSave r
      let loaded ← StateT.run (redisIndexRdbLoad draw 0) io
      let idx ← orFault loaded.1 .exit
      .ok (db.setIndex key idx)
  | _ => .ok db

/-- A command with the level that is drawn for it and what its memory holds when it is allocated, or
a key that goes through its RDB form, with the levels drawn for its ids. -/
inductive Event
  | command (c : Command) (level : Level) (memory : CursorWords)
  | reload (key : RedisModuleString) (draw : Nat → Level)

/-- `IndexSelectCommand`, where it is called at `now` with `tok`. -/
def selectAt (strtod : List UInt8 → Strtod) (now : Int64) (tok : Token) (memory : CursorWords)
    (fuel : Nat) (db : Keyspace) (argv : List RedisModuleString) :
    Exec (Keyspace × SelectReply) :=
  -- Neither a call to Redis nor a level is made.
  indexSelectCommand
    { call := fun db _ _ => (db, .unknown)
      strtod := strtod
      now := now
      tok := tok
      draw := fun _ => level1
      memory := memory }
    fuel db argv

def serveCommand (strtod : List UInt8 → Strtod) (fuel : Nat) (db : Keyspace) (level : Level)
    (memory : CursorWords) : Command → Exec (Keyspace × List ModuleReply)
  | .create argv => do
      let r ← createIndexCommand db argv
      .ok (r.1, [r.2])
  | .insert argv => do
      let r ← indexInsertCommand strtod level db argv
      .ok (r.1, [r.2])
  | .del argv => do
      let r ← indexDelCommand level db argv
      .ok (r.1, [r.2])
  | .card argv => do
      let r ← indexCardinalityCommand db argv
      .ok (r.1, [r.2])
  | .select now tok argv => do
      let r ← selectAt strtod now tok memory fuel db argv
      .ok (r.1, [r.2.sent])
  | .overwrite key value =>
      .ok (Function.update db key (value.map PlainObject.object), [])

/-- One event, with the replies of the module. -/
def serve (strtod : List UInt8 → Strtod) (fuel : Nat) (db : Keyspace) :
    Event → Exec (Keyspace × List ModuleReply)
  | .command c level memory => serveCommand strtod fuel db level memory c
  | .reload key draw => do
      let db ← reloadKey draw db key
      .ok (db, [])

end Secondary
