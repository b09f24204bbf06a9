import Secondary.Key
import Secondary.Spec

/-!
# Query — `query.h`, predicates and query trees

A query tree has predicates at its leaves and AND/OR nodes above them.  The planner marks nodes as
passed through; such a node counts as true.  A child can be the NULL pointer.
-/

namespace Secondary

/-- The union of an `SIPredicate`, under its tag. -/
inductive SIPredicateType
  | eq (v : SIValue)
  | ne (v : SIValue)
  | rng (min max : SIValue) (minExclusive maxExclusive : Bool)
  | inList (vals : List SIValue)
  /-- `eq.v` is set to NULL. -/
  | isNull (v : SIValue)

structure SIPredicate where
  /-- The ordinal of the column. -/
  propId : Int
  t : SIPredicateType

inductive SILogicOperator
  | opAnd
  | opOr
  deriving DecidableEq, Repr

/-- `SIQueryNode *`; `passthru` is the flag `QN_PASSTHRU` of the node's type. -/
inductive SIQueryNode
  | null
  | pred (passthru : Bool) (p : SIPredicate)
  | logic (passthru : Bool) (op : SILogicOperator) (left right : SIQueryNode)

structure SIQuery where
  root : SIQueryNode
  numPredicates : Nat

/-- `n->type & QN_PASSTHRU` -/
def SIQueryNode.isPassthru : SIQueryNode → Exec Bool
  | .null => .error .null
  | .pred passthru _ => .ok passthru
  | .logic passthru _ _ _ => .ok passthru

/-! ## Building queries -/

def siNewQuery : SIQuery where
  root := .null
  numPredicates := 0

def siPredEquals (propId : Int) (v : SIValue) : SIQueryNode :=
  .pred false { propId := propId, t := .eq v }

def siPredBetween (propId : Int) (min max : SIValue) (minExclusive maxExclusive : Bool) :
    SIQueryNode :=
  .pred false { propId := propId, t := .rng min max minExclusive maxExclusive }

def siPredIn (propId : Int) (vals : List SIValue) : SIQueryNode :=
  .pred false { propId := propId, t := .inList vals }

def siPredIsNull (propId : Int) : SIQueryNode :=
  .pred false { propId := propId, t := .isNull .null }

def siQueryNewLogicNode (left : SIQueryNode) (op : SILogicOperator) (right : SIQueryNode) :
    SIQueryNode :=
  .logic false op left right

/-! ## Evaluating a tree on a tuple -/

/-- The loop of `PRED_IN`: it stops at the first value that is not equal. -/
def equalsAll (cmp : SIKeyCmpFunc) (v : SIValue) : List SIValue → Exec Bool
  | [] => .ok true
  | w :: ws => do
      let c ← cmp v w
      if c ≠ 0 then
        .ok false
      else
        equalsAll cmp v ws

/-- `PRED_RNG` -/
def withinRange (cmp : SIKeyCmpFunc) (v min max : SIValue) (minExclusive maxExclusive : Bool) :
    Exec Bool := do
  let minc ← cmp v min
  if minc < 0 ∨ (minc = 0 ∧ minExclusive = true) then
    .ok false
  else do
    let maxc ← cmp v max
    .ok (!decide (0 < maxc ∨ (maxc = 0 ∧ maxExclusive = true)))

def evalPredicate (pred : SIPredicate) (mk : SIMultiKey) (fv : List SIKeyCmpFunc) : Exec Bool :=
  if pred.propId < 0 ∨ (mk.length : Int) ≤ pred.propId then
    .ok false
  else do
    let cmp ← Lib.orFault fv[pred.propId.toNat]? .bounds
    let v ← Lib.orFault mk[pred.propId.toNat]? .bounds
    match pred.t with
    | .eq w => do
        let c ← cmp v w
        .ok (decide (c = 0))
    | .inList ws => do
        let all ← equalsAll cmp v ws
        -- Only true if there are values in the list.
        .ok (all && !ws.isEmpty)
    | .ne w => do
        let c ← cmp v w
        .ok (decide (c ≠ 0))
    | .rng min max minExclusive maxExclusive =>
        withinRange cmp v min max minExclusive maxExclusive
    -- An unsupported filter predicate is printed, and false.
    | .isNull _ => .ok false

def evalKey (mk : SIMultiKey) (fv : List SIKeyCmpFunc) : SIQueryNode → Exec Bool
  | .null => .error .null
  | .pred passthru p => if passthru then .ok true else evalPredicate p mk fv
  | .logic passthru op left right =>
      if passthru then
        .ok true
      else do
        let leftEval ← evalKey mk fv left
        match op with
        | .opOr => if leftEval then .ok true else evalKey mk fv right
        | .opAnd => if leftEval then evalKey mk fv right else .ok false

end Secondary
