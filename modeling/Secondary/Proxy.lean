import Secondary.HashIndex
import Secondary.Lib.Traced
import Secondary.SchemaSyntax

/-!
# Proxy — IDX.FROM and IDX.INTO, argument by argument

Both commands get a Redis command behind the name of the index and an optional WHERE clause, which
they look for among all arguments, and pass the arguments behind it on to Redis.  Here a run is seen
from outside: the replies it completes, the arguments it hands on and the commands that Redis
executes.  Reading `argv` outside its bounds and using a query that was not assigned are faults of
their own, apart from those of the code that is called.  `indexIntoCommand` is what a run of
IDX.INTO comes to, whatever was seen of it.
-/

namespace Secondary

open Lib Lib.Traced

/-! ## Runs -/

inductive ProxyFault
  /-- An element of `argv` at or behind `argc`. -/
  | argv
  /-- The query, which nobody assigned. -/
  | query
  /-- A fault of the code that is called. -/
  | inner (f : Fault)
  deriving DecidableEq

/-- The fault in the terms of the other models. -/
def ProxyFault.fault : ProxyFault → Fault
  | .argv => .bounds
  | .query => .unset
  | .inner f => f

inductive ProxyReply
  | wrongArity
  | error (msg : List UInt8)
  | longLong (num : Nat)
  /-- An array; it is complete when its length is sent. -/
  | array (len : Nat)

inductive ProxyEvent
  /-- A top-level reply is complete. -/
  | reply (r : ProxyReply)
  /-- The command is handed on, with a query or without. -/
  | handOn (query : Bool) (args : List RedisModuleString)
  /-- `RedisModule_Call` -/
  | call (args : List RedisModuleString)

def ProxyEvent.isReply : ProxyEvent → Bool
  | .reply _ => true
  | _ => false

abbrev ProxyRun (α : Type) : Type :=
  Traced ProxyFault ProxyEvent α

/-- A call of code that is modelled elsewhere. -/
def inner {α : Type} (x : Exec α) : ProxyRun α :=
  lift (x.mapError ProxyFault.inner)

/-- `argv[i]` -/
def argAt (argv : List RedisModuleString) (i : Nat) : ProxyRun RedisModuleString :=
  lift (orFault argv[i]? .argv)

/-- The last thing that a command does. -/
def answer (db : Keyspace) (r : ProxyReply) : ProxyRun (Keyspace × ProxyReply) := do
  emit (.reply r)
  pure (db, r)

/-- `RedisModule_Call(ctx, argv[0], "v", &argv[1], argc - 1)` -/
def proxyCall (call : RedisCall) (db : Keyspace) :
    List RedisModuleString → ProxyRun (Keyspace × ReplyType)
  | [] => lift (.error .argv)
  | cmd :: args => do
      emit (.call (cmd :: args))
      pure (call db (cString cmd) args)

/-- `__callParametricCommand` -/
def callParametricCommand (call : RedisCall) (db : Keyspace) (id : SIId)
    (argv : List RedisModuleString) : ProxyRun (Keyspace × ReplyType) :=
  proxyCall call db (substituteId id argv)

/-! ## IDX.FROM -/

/-- The loop of `HashIndex_ExecuteReadCommand`; two elements of the array are sent for each id. -/
def readLoop (host : Host) (index : RedisModuleString) (argv : List RedisModuleString) :
    Nat → Keyspace → CursorStruct → Nat → ProxyRun (Keyspace × CursorStruct × Nat)
  | 0, _, _, _ => lift (.error (.inner .diverges))
  | fuel + 1, db, c, num => do
      let next ← inner (queryIdSource db index c)
      match next.2 with
      | none => pure (db, next.1, num)
      | some id => do
          let rep ← callParametricCommand host.call db id argv
          readLoop host index argv fuel rep.1 next.1 (num + 2)

/-- `HashIndex_ExecuteReadCommand` -/
def hashIndexExecuteReadCommand (host : Host) (fuel : Nat) (db : Keyspace)
    (index : RedisModuleString) (idx : CompoundIndex) (q : SIQuery)
    (argv : List RedisModuleString) : ProxyRun (Keyspace × ProxyReply) := do
  emit (.handOn true argv)
  let r ← inner (compoundIndexFindIn host.memory idx q)
  let error ← inner (r.2.error.read .unset)
  if error ≠ siCursorOk then
    -- The cursor of a search that failed is not freed here.
    answer db (.error (ascii "Error executing query"))
  else do
    let res ← readLoop host index argv fuel db r.2 0
    inner (siCursorFree res.2.1)
    answer res.1 (.array res.2.2)

/-- `IndexFromCommand` behind the check for a WHERE clause. -/
def fromWhere (host : Host) (fuel : Nat) (db : Keyspace) (index : RedisModuleString)
    (r : RedisIndex) (argv : List RedisModuleString) (wherePos : Nat) :
    ProxyRun (Keyspace × ProxyReply) := do
  let qstr ← argAt argv (wherePos + 1)
  let parsed ← inner (siParseQuery host.now host.strtod host.tok siNewQuery qstr (some r.spec))
  match parsed.1, parsed.2.2 with
  | false, some parseError => answer db (.error parseError.bytes)
  | false, none => answer db (.error (ascii "Error parsing WHERE query string"))
  | true, _ =>
      hashIndexExecuteReadCommand host fuel db index r.idx parsed.2.1 (argv.drop (wherePos + 2))

/-- `IndexFromCommand` -/
def indexFromCommand (host : Host) (fuel : Nat) (db : Keyspace) (argv : List RedisModuleString) :
    ProxyRun (Keyspace × ProxyReply) :=
  if argv.length < 6 then
    answer db .wrongArity
  else do
    let index ← argAt argv 1
    match db index with
    | some (.index r) =>
        let wherePos := rmUtilArgExists (ascii "WHERE") argv 0
        if wherePos = 0 ∨ argv.length - 1 ≤ wherePos then do
          -- The error is sent, and the command goes on.
          emit (.reply (.error (ascii "No Where clause given")))
          fromWhere host fuel db index r argv wherePos
        else
          fromWhere host fuel db index r argv wherePos
    | _ => answer db (.error (ascii errormsgWrongtype))

/-! ## IDX.INTO -/

/-- `CreateIndexedTransaction`: the transaction or its `err`.  `q` is NULL without WHERE, and points
to a query that was assigned or not. -/
def createIndexedTransaction (host : Host) (idx : CompoundIndex) (q : Option (Option SIQuery))
    (argv : List RedisModuleString) :
    ProxyRun (Except (List UInt8) IndexedTransaction) := do
  emit (.handOn q.isSome argv)
  let name ← argAt argv 0
  match hashIndexGetHandler host.strtod name with
  | none => pure (.error (ascii "Command not supported"))
  | some cmd =>
      match q with
      | none =>
          -- Without WHERE the ids are the keys that the command names.
          match hashIndexGetIdsForCommand host.strtod argv with
          | none => pure (.error (ascii "No key for requested command"))
          | some ids => pure (.ok { cmd := cmd, ids := ids })
      | some q => do
          let q ← lift (orFault q .query)
          let found ← inner (hashIndexGetIdsFromQuery host.memory idx (some q))
          match found.2 with
          | none => pure (.error (ascii "Error executing WHERE clause"))
          | some c => pure (.ok { cmd := cmd, ids := .queryIdSource c })

/-- `while (NULL != (id = tx.ids(tx.ctx)))`; with WHERE a command may add to what is ahead of the
cursor, so the number of rounds has no bound. -/
def intoLoop (host : Host) (index : RedisModuleString) (parametric : Bool)
    (argv : List RedisModuleString) (cmd : IndexedCommandProxy) :
    Nat → Keyspace → IdSource → Nat → ProxyRun (Keyspace × ProxyReply)
  | 0, _, _, _ => lift (.error (.inner .diverges))
  | fuel + 1, db, ids, num => do
      let next ← inner (nextId db index ids)
      match next.2 with
      | none => answer db (.longLong num)
      | some id => do
          -- As in `__callParametricCommand`, where there is a WHERE clause.
          let rep ← proxyCall host.call db (if parametric then substituteId id argv else argv)
          if rep.2 ≠ .error then do
            let rc ← inner (cmd index rep.1 id.bytes (host.draw num))
            if rc.2 ≠ redismoduleOk then
              answer rc.1 (.error (ascii "Command performed but updating index failed"))
            else
              intoLoop host index parametric argv cmd fuel rc.1 next.1 (num + 1)
          else
            -- A call that Redis answers with an error is not counted.
            intoLoop host index parametric argv cmd fuel rep.1 next.1 num

/-- `IndexIntoCommand` behind the query, which is not assigned where nothing was parsed. -/
def intoCommand (host : Host) (fuel : Nat) (db : Keyspace) (index : RedisModuleString)
    (r : RedisIndex) (argv : List RedisModuleString) (wherePos : Nat) (q : Option SIQuery) :
    ProxyRun (Keyspace × ProxyReply) := do
  -- The command comes after the query, or after the name of the index.
  let command := argv.drop (if wherePos ≠ 0 then wherePos + 2 else 2)
  let tx ← createIndexedTransaction host r.idx (if wherePos ≠ 0 then some q else none) command
  match tx with
  | .error msg => answer db (.error msg)
  | .ok tx => intoLoop host index (decide (wherePos ≠ 0)) command tx.cmd fuel db tx.ids 0

/-- `IndexIntoCommand` -/
def indexIntoRun (host : Host) (fuel : Nat) (db : Keyspace) (argv : List RedisModuleString) :
    ProxyRun (Keyspace × ProxyReply) :=
  if argv.length < 4 then
    answer db .wrongArity
  else do
    let index ← argAt argv 1
    match db index with
    | some (.index r) =>
        let wherePos := rmUtilArgExists (ascii "WHERE") argv 0
        if wherePos ≠ 0 ∧ wherePos < argv.length - 1 then do
          let qstr ← argAt argv (wherePos + 1)
          let parsed ←
            inner (siParseQuery host.now host.strtod host.tok siNewQuery qstr (some r.spec))
          match parsed.1, parsed.2.2 with
          | true, _ => intoCommand host fuel db index r argv wherePos (some parsed.2.1)
          | false, some parseError => answer db (.error parseError.bytes)
          | false, none => answer db (.error (ascii "Error parsing WHERE query string"))
        else
          intoCommand host fuel db index r argv wherePos none
    | _ => answer db (.error (ascii errormsgWrongtype))

/-- The keys and the reply after `IndexIntoCommand`. -/
def indexIntoCommand (host : Host) (fuel : Nat) (db : Keyspace) (argv : List RedisModuleString) :
    Exec (Keyspace × ProxyReply) :=
  forget ProxyFault.fault (indexIntoRun host fuel db argv)

/-! ## Without the events -/

section Forget

variable {α : Type}

@[simp] theorem forget_inner (x : Exec α) : forget ProxyFault.fault (inner x) = x := by
  cases x <;> rfl

@[simp] theorem forget_argAt (argv : List RedisModuleString) (i : Nat) :
    forget ProxyFault.fault (argAt argv i) = orFault argv[i]? .bounds := by
  cases h : argv[i]? <;> simp [argAt, h, Except.mapError, ProxyFault.fault]

@[simp] theorem forget_answer (db : Keyspace) (r : ProxyReply) :
    forget ProxyFault.fault (answer db r) = .ok (db, r) := rfl

@[simp] theorem forget_proxyCall (call : RedisCall) (db : Keyspace) (cmd : RedisModuleString)
    (args : List RedisModuleString) :
    forget ProxyFault.fault (proxyCall call db (cmd :: args)) =
      .ok (call db (cString cmd) args) := rfl

end Forget

end Secondary
