import Secondary.Commands
import Secondary.CursorSpec
import Secondary.Lib.Dialogue
import Secondary.Lib.Placed

/-!
# Service — what the module is for

Keys hold indexes, and an index is a finite map from ids to tuples in which no two tuples compare
equal.  Nothing else bears on the replies: there are no nodes, no levels and no memory here, an
index that is saved and loaded is the same index, and IDX.SELECT lists the map in the order of its
tuples.
-/

namespace Secondary

open Lib

/-! ## Schemas -/

/-- A schema that an index can be made for, and that is loaded as it was saved. -/
structure SchemaOk (spec : SISpec) : Prop where
  columns : ∀ p ∈ spec.properties, ColumnType p.type
  few : spec.numProps ≤ 255
  named : ∀ p ∈ spec.properties, p.name.isSome = isNamed spec.flags

instance : DecidablePred SchemaOk := fun spec =>
  decidable_of_iff
    ((∀ p ∈ spec.properties, ColumnType p.type) ∧ spec.numProps ≤ 255 ∧
      ∀ p ∈ spec.properties, p.name.isSome = isNamed spec.flags)
    ⟨fun h => ⟨h.1, h.2.1, h.2.2⟩, fun h => ⟨h.columns, h.few, h.named⟩⟩

abbrev ServedSchema : Type :=
  {spec : SISpec // SchemaOk spec}

/-- The comparators of columns; every column type has one. -/
def comparators (types : List SIType) : List SIKeyCmpFunc :=
  types.map fun t =>
    match cmpFuncOf t with
    | .ok f => f
    | .error _ => fun _ _ => .ok 0

/-! ## Indexes -/

/-- The tuples of an index, each with an id and a place of its own. -/
abbrev TupleTable : Type :=
  Placed SIId SIMultiKey places

structure ServedIndex where
  kind : SIIndexKind
  schema : ServedSchema
  table : TupleTable
  typed : ∀ {id k}, table.map.lookup id = some k → KeyOk schema.val.types k

namespace ServedIndex

def new (kind : SIIndexKind) (schema : ServedSchema) : ServedIndex where
  kind := kind
  schema := schema
  table := .empty
  typed h := by simp [Placed.empty] at h

def spec (a : ServedIndex) : SISpec :=
  a.schema.val

def insert (a : ServedIndex) (id : SIId) (vals : List SIValue) (htyped : KeyOk a.spec.types vals)
    (hfree : ¬a.table.Taken id vals) : ServedIndex where
  kind := a.kind
  schema := a.schema
  table := a.table.insert id vals hfree
  typed {id' k} h := by
    rcases lookup_of_insert h with ⟨_, rfl⟩ | ⟨_, hold⟩
    · exact htyped
    · exact a.typed hold

def erase (a : ServedIndex) (id : SIId) : ServedIndex where
  kind := a.kind
  schema := a.schema
  table := a.table.erase id
  typed h := a.typed (lookup_of_erase h).2

def card (a : ServedIndex) : Nat :=
  a.table.map.keys.card

/-- Whether a plan selects a tuple in one of its ranges. -/
def selects (a : ServedIndex) (plan : SIQueryPlan) (r : SIPlanRange) (k : SIMultiKey) : Bool :=
  decide (NotBelow (comparators a.spec.types) r k ∧ NotAbove (comparators a.spec.types) r k ∧
    PassesPlan (comparators a.spec.types) plan k)

/-- The ids whose tuples a plan selects: range by range, in the order of the tuples. -/
noncomputable def selected (a : ServedIndex) (plan : SIQueryPlan) : List SIId :=
  plan.ranges.flatMap fun r =>
    (a.table.listing.filter fun e => a.selects plan r e.2).map Prod.fst

end ServedIndex

/-! ## Keys -/

/-- What is at a key. -/
inductive Served
  | index (a : ServedIndex)
  | plain

abbrev Service : Type :=
  RedisModuleString → Option Served

def Service.indexAt (s : Service) (key : RedisModuleString) : Option ServedIndex :=
  match s key with
  | some (.index a) => some a
  | _ => none

def Service.set (s : Service) (key : RedisModuleString) (a : ServedIndex) : Service :=
  Function.update s key (some (.index a))

/-- The name of the index in a command. -/
def keyOf (argv : List RedisModuleString) : RedisModuleString :=
  (argv[1]?).getD []

/-! ## Commands -/

/-- The schema of an IDX.CREATE, if it is one. -/
def schemaOf (argv : List RedisModuleString) : Option (SIIndexKind × SISpec) :=
  match siParseSpec argv with
  | .ok r => r
  | .error _ => none

def wrongType : ModuleReply :=
  .error (ascii errormsgWrongtype)

def okReply : ModuleReply :=
  .simpleString (ascii "OK")

namespace Service

def create (s : Service) (argv : List RedisModuleString) : Service × ModuleReply :=
  if argv.length < 4 then
    (s, .wrongArity)
  else
    match schemaOf argv with
    | none => (s, .error (ascii "Invalid schema"))
    | some (kind, spec) =>
        if (s (keyOf argv)).isSome then
          (s, wrongType)
        else if h : SchemaOk spec then
          (s.set (keyOf argv) (.new kind ⟨spec, h⟩), okReply)
        else
          (s, okReply)

open Classical in
/-- A tuple that does not have a value for each column is refused, and one that compares equal to
the tuple of another id. -/
noncomputable def insert (strtod : List UInt8 → Strtod) (s : Service)
    (argv : List RedisModuleString) : Service × ModuleReply :=
  if argv.length < 4 then
    (s, .wrongArity)
  else
    match s.indexAt (keyOf argv) with
    | none => (s, wrongType)
    | some a =>
        match parseArgs strtod a.spec.properties (argv.drop 3) with
        | none => (s, .error (ascii "Invalid value given"))
        | some vals =>
            if h : KeyOk a.spec.types vals ∧ ¬a.table.Taken (cString ((argv[2]?).getD [])) vals then
              (s.set (keyOf argv) (a.insert (cString ((argv[2]?).getD [])) vals h.1 h.2), okReply)
            else
              (s, .error (ascii "Could not apply change to index"))

def del (s : Service) (argv : List RedisModuleString) : Service × ModuleReply :=
  if argv.length < 3 then
    (s, .wrongArity)
  else
    match s.indexAt (keyOf argv) with
    | none => (s, wrongType)
    | some a =>
        (s.set (keyOf argv) ((argv.drop 2).foldl (fun a id => a.erase (cString id)) a), okReply)

def card (s : Service) (argv : List RedisModuleString) : Service × ModuleReply :=
  if argv.length ≠ 2 then
    (s, .wrongArity)
  else
    match s (keyOf argv) with
    | none => (s, .longLong 0)
    | some (.index a) => (s, .longLong a.card)
    | some .plain => (s, wrongType)

noncomputable def select (strtod : List UInt8 → Strtod) (now : Int64) (tok : Token) (s : Service)
    (argv : List RedisModuleString) : Service × ModuleReply :=
  if argv.length < 4 then
    (s, .wrongArity)
  else
    match s.indexAt (keyOf argv) with
    | none => (s, wrongType)
    | some a =>
        match siParseQuery now strtod tok siNewQuery ((argv[3]?).getD []) (some a.spec) with
        | .ok (false, _, some msg) => (s, .error msg.bytes)
        | .ok (true, q, _) =>
            match siBuildQueryPlan q a.spec with
            | .ok (_, some plan) => (s, .array (a.selected plan))
            | _ => (s, .array [])
        | _ => (s, .error (ascii "Error parsing query string"))

/-- The replies of the module to a command, and what is at the keys afterwards. -/
noncomputable def answer (strtod : List UInt8 → Strtod) (s : Service) :
    Command → Service × List ModuleReply
  | .create argv => ((s.create argv).1, [(s.create argv).2])
  | .insert argv => ((s.insert strtod argv).1, [(s.insert strtod argv).2])
  | .del argv => ((s.del argv).1, [(s.del argv).2])
  | .card argv => ((s.card argv).1, [(s.card argv).2])
  | .select now tok argv =>
      ((s.select strtod now tok argv).1, [(s.select strtod now tok argv).2])
  | .overwrite key value =>
      (Function.update s key (value.map fun _ => .plain), [])

end Service

/-! ## Questions -/

/-- The text is no query, or one that can be planned; and the parser reads it without a fault, so no
IN of it lists more than 1000 values. -/
def CanAnswer (strtod : List UInt8 → Strtod) (now : Int64) (tok : Token) (qstr : RedisModuleString)
    (spec : SISpec) : Prop :=
  ∃ ok q msg, siParseQuery now strtod tok siNewQuery qstr (some spec) = .ok (ok, q, msg) ∧
    (ok = true → Plannable spec.types q.root ∧
      ∃ q' plan, siBuildQueryPlan q spec = .ok (q', some plan))

/-- What a command must not do: make an index of more than 255 columns; store a NaN; give an id of
an index that is not UNIQUE a tuple that another id has; ask for what cannot be planned. -/
def Admissible (strtod : List UInt8 → Strtod) (s : Service) : Command → Prop
  | .create argv => ∀ kind spec, schemaOf argv = some (kind, spec) → spec.numProps ≤ 255
  | .insert argv => ∀ a vals, s.indexAt (keyOf argv) = some a →
      parseArgs strtod a.spec.properties (argv.drop 3) = some vals →
      (∀ v ∈ vals, v.NotNaN) ∧
        (a.spec.isUnique = false → ¬a.table.Taken (cString ((argv[2]?).getD [])) vals)
  | .select now tok argv => ∀ a, s.indexAt (keyOf argv) = some a →
      CanAnswer strtod now tok ((argv[3]?).getD []) a.spec
  | _ => True

/-- What an event asks of the module. -/
def Event.asks : Event → Option Command
  | .command c _ _ => some c
  | .reload _ _ => none

end Secondary
