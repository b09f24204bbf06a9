import Secondary.Find
import Secondary.Lib.RefCount
import Secondary.Query.Parse

/-!
# Query.Counted — the strings of a query and their reference counts

An `SIString` points to a counter that its copies share.  The values of the parse tree, of the query
tree and of the scan ranges are here with the counter of their string, and the functions that copy
and free values count.  Forgetting the counters gives the trees and functions of the other modules.
-/

namespace Secondary

open Lib Lib.Counting

/-- Computations that count references to strings. -/
abbrev StringCounting (α : Type) : Type :=
  Counting Fault α

/-! ## Values -/

/-- An `SIValue`, with the `refcount` of its string where it is one. -/
inductive RcValue
  | string (stringval : List UInt8) (refcount : Cell)
  | other (v : SIValue) (h : v.type ≠ .string)

namespace RcValue

def erase : RcValue → SIValue
  | string s _ => .string s
  | other v _ => v

/-- The counters of a value: the one of its string. -/
def cells : RcValue → List Cell
  | string _ rc => [rc]
  | other _ _ => []

def null : RcValue :=
  other .null (by decide)

def inf : RcValue :=
  other .inf (by decide)

def negInf : RcValue :=
  other .negInf (by decide)

@[simp] theorem erase_string (s : List UInt8) (rc : Cell) : (string s rc).erase = .string s := rfl
@[simp] theorem erase_other (v : SIValue) (h : v.type ≠ .string) : (other v h).erase = v := rfl
@[simp] theorem cells_string (s : List UInt8) (rc : Cell) : (string s rc).cells = [rc] := rfl
@[simp] theorem cells_other (v : SIValue) (h : v.type ≠ .string) : (other v h).cells = [] := rfl
@[simp] theorem erase_null : null.erase = .null := rfl
@[simp] theorem cells_null : null.cells = [] := rfl
@[simp] theorem erase_inf : inf.erase = .inf := rfl
@[simp] theorem cells_inf : inf.cells = [] := rfl
@[simp] theorem erase_negInf : negInf.erase = .negInf := rfl
@[simp] theorem cells_negInf : negInf.cells = [] := rfl

end RcValue

/-- `SI_StringValC`: a new string with its counter at 1. -/
def siStringValC (s : List UInt8) : StringCounting RcValue := do
  let rc ← newRef
  pure (.string s rc)

/-- `SIValue_Copy`, and `SIValue_IncRef` on a value that was copied. -/
def siValueCopy : RcValue → StringCounting RcValue
  | .string s rc => do
      incRef rc
      pure (.string s rc)
  | .other v h => pure (.other v h)

/-- `SIValue_Free` -/
def siValueFree : RcValue → StringCounting Unit
  | .string _ rc => decRef rc
  | .other _ _ => pure ()

/-- `SIValueVector_Free` -/
def siValueVectorFree (vals : List RcValue) : StringCounting Unit :=
  freeEach RcValue.cells siValueFree vals

/-! ## Parse trees -/

inductive RcOperand
  | val (v : RcValue)
  | lst (vals : List RcValue)

structure RcPredicateNode where
  prop : Property
  op : Terminal
  operand : RcOperand

inductive RcParseNode
  | pred (pn : RcPredicateNode)
  | cond (left : RcParseNode) (op : Terminal) (right : RcParseNode)

def RcOperand.erase : RcOperand → PredicateOperand
  | val v => .val v.erase
  | lst vals => .lst (vals.map RcValue.erase)

def RcOperand.cells : RcOperand → List Cell
  | val v => v.cells
  | lst vals => vals.flatMap RcValue.cells

namespace RcPredicateNode

def erase (n : RcPredicateNode) : PredicateNode where
  prop := n.prop
  op := n.op
  operand := n.operand.erase

/-- `n->val` -/
def val (n : RcPredicateNode) : Exec RcValue :=
  match n.operand with
  | .val v => .ok v
  | .lst _ => .error .member

/-- `n->lst` -/
def lst (n : RcPredicateNode) : Exec (List RcValue) :=
  match n.operand with
  | .lst vals => .ok vals
  | .val _ => .error .member

end RcPredicateNode

namespace RcParseNode

def erase : RcParseNode → ParseNode
  | pred pn => .pred pn.erase
  | cond left op right => .cond left.erase op right.erase

def cells : RcParseNode → List Cell
  | pred pn => pn.operand.cells
  | cond left _ right => left.cells ++ right.cells

end RcParseNode

/-- `ParseNode_Free` -/
def parseNodeFree : RcParseNode → StringCounting Unit
  | .pred pn =>
      if pn.op = .IN then do
        let lst ← ofExcept pn.lst
        siValueVectorFree lst
      else do
        let val ← ofExcept pn.val
        siValueFree val
  | .cond left _ right => do
      holding right.cells (parseNodeFree left)
      parseNodeFree right

/-! ## Query trees -/

inductive RcPredicateType
  | eq (v : RcValue)
  | ne (v : RcValue)
  | rng (min max : RcValue) (minExclusive maxExclusive : Bool)
  | inList (vals : List RcValue)
  /-- `eq.v` is set to NULL. -/
  | isNull

structure RcPredicate where
  propId : Int
  t : RcPredicateType

inductive RcQueryNode
  | null
  | pred (passthru : Bool) (p : RcPredicate)
  | logic (passthru : Bool) (op : SILogicOperator) (left right : RcQueryNode)

structure RcQuery where
  root : RcQueryNode
  numPredicates : Nat

namespace RcPredicateType

def erase : RcPredicateType → SIPredicateType
  | eq v => .eq v.erase
  | ne v => .ne v.erase
  | rng min max minExclusive maxExclusive => .rng min.erase max.erase minExclusive maxExclusive
  | inList vals => .inList (vals.map RcValue.erase)
  | isNull => .isNull .null

def cells : RcPredicateType → List Cell
  | eq v => v.cells
  | ne v => v.cells
  | rng min max _ _ => min.cells ++ max.cells
  | inList vals => vals.flatMap RcValue.cells
  | isNull => []

end RcPredicateType

def RcPredicate.erase (p : RcPredicate) : SIPredicate where
  propId := p.propId
  t := p.t.erase

namespace RcQueryNode

def erase : RcQueryNode → SIQueryNode
  | null => .null
  | pred passthru p => .pred passthru p.erase
  | logic passthru op left right => .logic passthru op left.erase right.erase

def cells : RcQueryNode → List Cell
  | null => []
  | pred _ p => p.t.cells
  | logic _ _ left right => left.cells ++ right.cells

def isPassthru : RcQueryNode → Exec Bool
  | null => .error .null
  | pred passthru _ => .ok passthru
  | logic passthru _ _ _ => .ok passthru

/-- `ret->pred.propId = id` -/
def setPropId (ret : RcQueryNode) (id : Int) : Exec RcQueryNode :=
  match ret with
  | .null => .error .null
  | .pred passthru p => .ok (.pred passthru { p with propId := id })
  | .logic _ _ _ _ => .error .member

end RcQueryNode

def RcQuery.erase (q : RcQuery) : SIQuery where
  root := q.root.erase
  numPredicates := q.numPredicates

/-! ### Building and freeing -/

/-- `SI_PredEquals` -/
def siPredEqualsRc (propId : Int) (v : RcValue) : StringCounting RcQueryNode := do
  let v ← siValueCopy v
  pure (.pred false { propId := propId, t := .eq v })

/-- `SI_PredBetween` -/
def siPredBetweenRc (propId : Int) (min max : RcValue) (minExclusive maxExclusive : Bool) :
    StringCounting RcQueryNode := do
  let min ← siValueCopy min
  let max ← holding min.cells (siValueCopy max)
  pure (.pred false { propId := propId, t := .rng min max minExclusive maxExclusive })

/-- `SI_PredIn`.  A value of the new vector counts once its string does. -/
def siPredInRc (propId : Int) (vals : List RcValue) : StringCounting RcQueryNode := do
  let vec ← gather RcValue.cells
    (fun v => do
      let v ← siValueCopy v
      pure [v])
    vals
  pure (.pred false { propId := propId, t := .inList vec })

/-- `SI_PredIsNull` -/
def siPredIsNullRc (propId : Int) : StringCounting RcQueryNode :=
  pure (.pred false { propId := propId, t := .isNull })

/-- `__freePredicate` -/
def freePredicate : RcPredicateType → StringCounting Unit
  | .eq v => siValueFree v
  | .inList vals => siValueVectorFree vals
  | .rng min max _ _ => do
      holding max.cells (siValueFree min)
      siValueFree max
  | .ne v => siValueFree v
  | .isNull => pure ()

/-- `SIQueryNode_Free`, whether the node is passed through or not. -/
def siQueryNodeFree : RcQueryNode → StringCounting Unit
  | .null => pure ()
  | .pred _ p => freePredicate p.t
  | .logic _ _ left right => do
      holding right.cells (siQueryNodeFree left)
      siQueryNodeFree right

/-! ## From the parse tree to the query tree -/

/-- The case `LIKE`: both bounds share the buffer of the pattern, and its counter. -/
def likeQueryNodeRc : RcValue → StringCounting RcQueryNode
  | .string str rc =>
      if str.getLast? = some 37 then
        siPredBetweenRc 0 (.string str.dropLast rc) (.string (str.dropLast ++ [255]) rc) false false
      else
        siPredEqualsRc 0 (.string str rc)
  | .other _ _ => ofExcept (.error .member)

/-- `toQueryNode` -/
def toQueryNodeRc (n : RcPredicateNode) : StringCounting RcQueryNode :=
  match n.op with
  | .EQ => do
      let val ← ofExcept n.val
      siPredEqualsRc 0 val
  | .GT => do
      let val ← ofExcept n.val
      siPredBetweenRc 0 val .inf true false
  | .GE => do
      let val ← ofExcept n.val
      siPredBetweenRc 0 val .inf false false
  | .LT => do
      let val ← ofExcept n.val
      siPredBetweenRc 0 .negInf val false true
  | .LE => do
      let val ← ofExcept n.val
      siPredBetweenRc 0 .negInf val false false
  | .IN => do
      let lst ← ofExcept n.lst
      siPredInRc 0 lst
  | .LIKE => do
      let val ← ofExcept n.val
      likeQueryNodeRc val
  | .IS => do
      let val ← ofExcept n.val
      if val.erase.isNull then siPredIsNullRc 0 else pure .null
  | _ => pure .null

/-- `traverseNode` -/
def traverseNodeRc (spec : Option SISpec) : RcParseNode → Nat → StringCounting (RcQueryNode × Nat)
  | .cond left op right, numPredicates => do
      let l ← traverseNodeRc spec left numPredicates
      let r ← holding l.1.cells (traverseNodeRc spec right l.2)
      pure (.logic false (if op = .OR then .opOr else .opAnd) l.1 r.1, r.2)
  | .pred pn, numPredicates => do
      let ret ← toQueryNodeRc pn
      let ret ← ofExcept (ret.setPropId (propIdOf spec pn.prop))
      pure (ret, numPredicates + 1)

/-- What `SI_ParseQuery` does with a parse tree: it prints it, translates it and frees it. -/
def translateRc (spec : Option SISpec) (root : RcParseNode) : StringCounting RcQuery := do
  useEach root.cells
  let res ← holding root.cells (traverseNodeRc spec root 0)
  holding res.1.cells (parseNodeFree root)
  pure { root := res.1, numPredicates := res.2 }

/-! ## Plans -/

/-- `siPlanRangeKey`: its values are those of the query tree, which it points to. -/
structure RcPlanRangeKey where
  min : RcValue
  max : RcValue
  minExclusive : Bool
  maxExclusive : Bool

structure RcPlanRange where
  min : List RcValue
  minExclusive : Bool
  max : List RcValue
  maxExclusive : Bool

structure RcQueryPlan where
  ranges : List RcPlanRange
  /-- The tree of the query, not a copy of it. -/
  filterTree : Option RcQueryNode

namespace RcPlanRangeKey

def erase (k : RcPlanRangeKey) : SIPlanRangeKey where
  min := k.min.erase
  max := k.max.erase
  minExclusive := k.minExclusive
  maxExclusive := k.maxExclusive

/-- The counters that it leads to. -/
def cells (k : RcPlanRangeKey) : List Cell :=
  k.min.cells ++ k.max.cells

end RcPlanRangeKey

namespace RcPlanRange

def erase (r : RcPlanRange) : SIPlanRange where
  min := r.min.map RcValue.erase
  minExclusive := r.minExclusive
  max := r.max.map RcValue.erase
  maxExclusive := r.maxExclusive

def cells (r : RcPlanRange) : List Cell :=
  r.min.flatMap RcValue.cells ++ r.max.flatMap RcValue.cells

end RcPlanRange

namespace RcQueryPlan

def erase (p : RcQueryPlan) : SIQueryPlan where
  ranges := p.ranges.map RcPlanRange.erase
  filterTree := p.filterTree.map RcQueryNode.erase

/-- The counters of the values that are the plan's own. -/
def cells (p : RcQueryPlan) : List Cell :=
  p.ranges.flatMap RcPlanRange.cells

end RcQueryPlan

/-- `getPredicate` -/
def getPredicateRc (propId : Int) : RcQueryNode → RcQueryNode × Option RcPredicate
  | .null => (.null, none)
  | .pred passthru p =>
      if passthru = false ∧ p.propId = propId then
        (.pred true p, some p)
      else
        (.pred passthru p, none)
  | .logic passthru op left right =>
      if passthru = false ∧ op = .opAnd then
        let l := getPredicateRc propId left
        match l.2 with
        | some p => (.logic passthru op l.1 right, some p)
        | none =>
            let r := getPredicateRc propId right
            (.logic passthru op l.1 r.1, r.2)
      else
        (.logic passthru op left right, none)

def equalToRc (v : RcValue) : RcPlanRangeKey where
  min := v
  max := v
  minExclusive := false
  maxExclusive := false

/-- `predicateToRanges` -/
def predicateToRangesRc (pred : RcPredicate) : Option (List RcPlanRangeKey) × Bool :=
  match pred.t with
  | .eq v => (some [equalToRc v], false)
  | .rng min max minExclusive maxExclusive =>
      (some [{ min := min, max := max, minExclusive := minExclusive,
               maxExclusive := maxExclusive }], true)
  | .isNull => (some [equalToRc .null], false)
  | .inList vals => (some (vals.map equalToRc), false)
  | .ne _ => (none, false)

/-- `while (propId < spec->numProps && ...)` -/
def scanKeysRc (numPredicates : Nat) :
    Nat → RcQueryNode → List (List RcPlanRangeKey) →
      Exec (RcQueryNode × List (List RcPlanRangeKey))
  | 0, root, keys => .ok (root, keys)
  | props + 1, root, keys =>
      let r := getPredicateRc keys.length root
      match r.2 with
      | none => .ok (r.1, keys)
      | some pred =>
          if keys.length < numPredicates then
            match predicateToRangesRc pred with
            | (none, _) => .ok (r.1, keys)
            | (some ka, true) => .ok (r.1, keys ++ [ka])
            | (some ka, false) => scanKeysRc numPredicates props r.1 (keys ++ [ka])
          else
            .error .bounds

/-- The two values of a column of a range under construction. -/
def pairCells (p : RcValue × RcValue) : List Cell :=
  p.1.cells ++ p.2.cells

/-- The range that `buildKey` makes of one choice of range keys: copies of their values. -/
def siPlanRangeOfRc (stack : List RcPlanRangeKey) : StringCounting RcPlanRange := do
  let keys ← gather pairCells
    (fun k : RcPlanRangeKey => do
      let min ← siValueCopy k.min
      let max ← holding min.cells (siValueCopy k.max)
      pure [(min, max)])
    stack
  pure
    { min := keys.map Prod.fst
      minExclusive := (stack.getLast?.map RcPlanRangeKey.minExclusive).getD false
      max := keys.map Prod.snd
      maxExclusive := (stack.getLast?.map RcPlanRangeKey.maxExclusive).getD false }

/-- `buildKey` -/
def buildKeyRc : List (List RcPlanRangeKey) → List RcPlanRangeKey →
    StringCounting (List RcPlanRange)
  | [], stack => do
      let rng ← siPlanRangeOfRc stack
      pure [rng]
  | ks :: keys, stack => gather RcPlanRange.cells (fun k => buildKeyRc keys (stack ++ [k])) ks

/-- `cleanQueryNode`: a node that is replaced by one of its children is freed with the other. -/
def cleanQueryNodeRc : RcQueryNode → StringCounting RcQueryNode
  | .null => pure .null
  | .pred passthru p => pure (.pred passthru p)
  | .logic passthru op left right =>
      if passthru then
        pure (.logic passthru op left right)
      else do
        let left ← holding right.cells (cleanQueryNodeRc left)
        let right ← holding left.cells (cleanQueryNodeRc right)
        let l ← ofExcept left.isPassthru
        let r ← ofExcept right.isPassthru
        if l && r then
          pure (.logic true op left right)
        else if l then do
          holding right.cells (siQueryNodeFree (.logic passthru op left .null))
          pure right
        else if r then do
          holding left.cells (siQueryNodeFree (.logic passthru op .null right))
          pure left
        else
          pure (.logic passthru op left right)

/-- `SI_BuildQueryPlan` -/
def siBuildQueryPlanRc (q : RcQuery) (spec : SISpec) :
    StringCounting (RcQuery × Option RcQueryPlan) := do
  let r ← ofExcept (scanKeysRc q.numPredicates spec.numProps q.root [])
  if r.2.isEmpty then
    pure ({ q with root := r.1 }, none)
  else do
    let ranges ← holding r.1.cells (buildKeyRc r.2 [])
    let passthru ← ofExcept r.1.isPassthru
    if passthru then
      pure ({ q with root := r.1 }, some { ranges := ranges, filterTree := none })
    else do
      -- `SIQueryNode_Print`
      useEach r.1.cells
      let root ← holding (ranges.flatMap RcPlanRange.cells) (cleanQueryNodeRc r.1)
      pure ({ q with root := root }, some { ranges := ranges, filterTree := some root })

/-- `SIMultiKey_Free`: the size of a key is a byte, and the values behind it are not freed. -/
def siMultiKeyFree (keys : List RcValue) : StringCounting Unit := do
  let size := keys.length % 256
  holding ((keys.drop size).flatMap RcValue.cells) (siValueVectorFree (keys.take size))
  loseRefs ((keys.drop size).flatMap RcValue.cells)

/-- The body of the loop of `SIQueryPlan_Free`: both keys of a range. -/
def freeRange (rng : RcPlanRange) : StringCounting Unit := do
  holding (rng.max.flatMap RcValue.cells) (siMultiKeyFree rng.min)
  siMultiKeyFree rng.max

/-- `SIQueryPlan_Free` -/
def siQueryPlanFree (plan : RcQueryPlan) : StringCounting Unit :=
  freeEach RcPlanRange.cells freeRange plan.ranges

end Secondary
