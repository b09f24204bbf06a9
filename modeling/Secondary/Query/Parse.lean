import Secondary.Parser.Driver
import Secondary.Query.Basic
import Secondary.Schema

/-!
# Query.Parse — `query_parse.c`, from the parse tree to the query tree

`SI_ParseQuery` parses a WHERE clause and makes a query tree of the parse tree.  A predicate whose
operator is not supported has no node: `toQueryNode` returns NULL for it.
-/

namespace Secondary

open Lib

/-! ## Predicates -/

namespace PredicateNode

/-- `n->val` -/
def val (n : PredicateNode) : Exec SIValue :=
  match n.operand with
  | .val v => .ok v
  | .lst _ => .error .member

/-- `n->lst` -/
def lst (n : PredicateNode) : Exec (List SIValue) :=
  match n.operand with
  | .lst vals => .ok vals
  | .val _ => .error .member

end PredicateNode

/-- The case `LIKE`: a pattern that ends with `%` is a range.  Both bounds share the buffer of the
pattern, whose last byte becomes `0xff`; the lower bound is one byte shorter. -/
def likeQueryNode (val : SIValue) : Exec SIQueryNode := do
  let str ← val.stringval
  if str.getLast? = some 37 then
    .ok (siPredBetween 0 (.string str.dropLast) (.string (str.dropLast ++ [255])) false false)
  else
    .ok (siPredEquals 0 val)

/-- `toQueryNode`.  The caller sets the `propId` of the node. -/
def toQueryNode (n : PredicateNode) : Exec SIQueryNode :=
  match n.op with
  | .EQ => do
      let val ← n.val
      .ok (siPredEquals 0 val)
  | .GT => do
      let val ← n.val
      .ok (siPredBetween 0 val .inf true false)
  | .GE => do
      let val ← n.val
      .ok (siPredBetween 0 val .inf false false)
  | .LT => do
      let val ← n.val
      .ok (siPredBetween 0 .negInf val false true)
  | .LE => do
      let val ← n.val
      .ok (siPredBetween 0 .negInf val false false)
  | .IN => do
      let lst ← n.lst
      .ok (siPredIn 0 lst)
  | .LIKE => do
      let val ← n.val
      likeQueryNode val
  | .IS => do
      let val ← n.val
      -- What is not NULL falls through to the operators that are not supported.
      .ok (if val.isNull then siPredIsNull 0 else .null)
  | _ => .ok .null

/-! ## Properties -/

/-- `p.name && !strcasecmp(name, p.name)` -/
def SIIndexProperty.hasName (p : SIIndexProperty) (name : CString) : Bool :=
  match p.name with
  | some own => decide (strcasecmp name.bytes own.bytes = 0)
  | none => false

/-- `SISpec_PropertyByName` -/
def siSpecPropertyByName (spec : SISpec) (name : CString) : Option Nat :=
  spec.properties.findIdx? fun p => p.hasName name

/-- The `propId` of a predicate on the property; `spec` can be NULL. -/
def propIdOf (spec : Option SISpec) (prop : Property) : Int :=
  match prop.name, spec with
  | some name, some spec =>
      match siSpecPropertyByName spec name with
      | some i => i
      | none => -1
  | _, _ => prop.id - 1

/-- `ret->pred.propId = id` -/
def SIQueryNode.setPropId (ret : SIQueryNode) (id : Int) : Exec SIQueryNode :=
  match ret with
  | .null => .error .null
  | .pred passthru p => .ok (.pred passthru { p with propId := id })
  | .logic _ _ _ _ => .error .member

/-! ## Trees -/

/-- `traverseNode`: the node, and `q->numPredicates` after it. -/
def traverseNode (spec : Option SISpec) : ParseNode → Nat → Exec (SIQueryNode × Nat)
  | .cond left op right, numPredicates => do
      let l ← traverseNode spec left numPredicates
      let r ← traverseNode spec right l.2
      .ok (siQueryNewLogicNode l.1 (if op = .OR then .opOr else .opAnd) r.1, r.2)
  | .pred pn, numPredicates => do
      let ret ← toQueryNode pn
      let ret ← ret.setPropId (propIdOf spec pn.prop)
      .ok (ret, numPredicates + 1)

/-- `SI_ParseQuery`: 1 with the query, or 0; and the error message. -/
def siParseQuery (now : Int64) (strtod : List UInt8 → Strtod) (tok : Token) (query : SIQuery)
    (q : List UInt8) (spec : Option SISpec) : Exec (Bool × SIQuery × Option CString) := do
  let parsed ← parseQuery now strtod tok q
  match parsed.1 with
  | none => .ok (false, { query with numPredicates := 0 }, parsed.2)
  | some root => do
      let res ← traverseNode spec root 0
      .ok (true, { root := res.1, numPredicates := res.2 }, parsed.2)

end Secondary
