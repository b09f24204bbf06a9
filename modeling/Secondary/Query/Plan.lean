import Secondary.Query.Basic

/-!
# Plan — `query_plan.c`, from a query tree to scan ranges and a filter

The planner takes predicates of the leading columns out of the tree, marking them as passed
through, and makes ranges of tuples of their values.  What is left of the tree is the filter.
-/

namespace Secondary

open Lib

/-- `siPlanRangeKey`, with the values in place of pointers to them. -/
structure SIPlanRangeKey where
  min : SIValue
  max : SIValue
  minExclusive : Bool
  maxExclusive : Bool

structure SIPlanRange where
  min : SIMultiKey
  minExclusive : Bool
  max : SIMultiKey
  maxExclusive : Bool

structure SIQueryPlan where
  ranges : List SIPlanRange
  filterTree : Option SIQueryNode

/-- The first predicate of a column that is not below an OR node, and the tree with that predicate
marked. -/
def getPredicate (propId : Int) : SIQueryNode → SIQueryNode × Option SIPredicate
  | .null => (.null, none)
  | .pred passthru p =>
      if passthru = false ∧ p.propId = propId then
        (.pred true p, some p)
      else
        (.pred passthru p, none)
  | .logic passthru op left right =>
      if passthru = false ∧ op = .opAnd then
        -- The right side is only looked at where the left one has none.
        let l := getPredicate propId left
        match l.2 with
        | some p => (.logic passthru op l.1 right, some p)
        | none =>
            let r := getPredicate propId right
            (.logic passthru op l.1 r.1, r.2)
      else
        (.logic passthru op left right, none)

def equalTo (v : SIValue) : SIPlanRangeKey where
  min := v
  max := v
  minExclusive := false
  maxExclusive := false

/-- The ranges of one predicate and `isLast`; NULL for a predicate that has none. -/
def predicateToRanges (pred : SIPredicate) : Option (List SIPlanRangeKey) × Bool :=
  match pred.t with
  | .eq v => (some [equalTo v], false)
  | .rng min max minExclusive maxExclusive =>
      (some [{ min := min, max := max, minExclusive := minExclusive,
               maxExclusive := maxExclusive }], true)
  | .isNull v => (some [equalTo v], false)
  | .inList vals => (some (vals.map equalTo), false)
  | .ne _ => (none, false)

/-- The scan range of one choice of range keys.  The flags of the last one win.  The size of its keys
is a byte, `rng->min->size`, and here the number of their values: the two are the same for plans of
at most 255 columns. -/
def siPlanRangeOf (stack : List SIPlanRangeKey) : SIPlanRange where
  min := stack.map SIPlanRangeKey.min
  minExclusive := (stack.getLast?.map SIPlanRangeKey.minExclusive).getD false
  max := stack.map SIPlanRangeKey.max
  maxExclusive := (stack.getLast?.map SIPlanRangeKey.maxExclusive).getD false

/-- The cartesian product of the range keys of all columns. -/
def buildKey : List (List SIPlanRangeKey) → List SIPlanRangeKey → List SIPlanRange
  | [], stack => [siPlanRangeOf stack]
  | ks :: keys, stack => ks.flatMap fun k => buildKey keys (stack ++ [k])

/-- The tree without the nodes that are passed through. -/
def cleanQueryNode : SIQueryNode → Exec SIQueryNode
  | .null => .ok .null
  | .pred passthru p => .ok (.pred passthru p)
  | .logic passthru op left right =>
      if passthru then
        .ok (.logic passthru op left right)
      else do
        let left ← cleanQueryNode left
        let right ← cleanQueryNode right
        -- A node with one child that is left is replaced by that child.
        let l ← left.isPassthru
        let r ← right.isPassthru
        if l && r then
          .ok (.logic true op left right)
        else if l then
          .ok right
        else if r then
          .ok left
        else
          .ok (.logic passthru op left right)

/-- `while (propId < spec->numProps && ...)`; `propId` is the number of keys so far. -/
def scanKeys (numPredicates : Nat) :
    Nat → SIQueryNode → List (List SIPlanRangeKey) →
      Exec (SIQueryNode × List (List SIPlanRangeKey))
  | 0, root, keys => .ok (root, keys)
  | props + 1, root, keys =>
      let r := getPredicate keys.length root
      match r.2 with
      | none => .ok (r.1, keys)
      | some pred =>
          -- `keys` and `keyNums` have room for as many columns as there are predicates.
          if keys.length < numPredicates then
            match predicateToRanges pred with
            | (none, _) => .ok (r.1, keys)
            | (some ka, true) => .ok (r.1, keys ++ [ka])
            | (some ka, false) => scanKeys numPredicates props r.1 (keys ++ [ka])
          else
            .error .bounds

/-- `SI_BuildQueryPlan`: the plan, or NULL, and the query with its tree changed. -/
def siBuildQueryPlan (q : SIQuery) (spec : SISpec) : Exec (SIQuery × Option SIQueryPlan) := do
  let r ← scanKeys q.numPredicates spec.numProps q.root []
  if r.2.isEmpty then
    .ok ({ q with root := r.1 }, none)
  else do
    let ranges := buildKey r.2 []
    let passthru ← r.1.isPassthru
    if passthru then
      .ok ({ q with root := r.1 }, some { ranges := ranges, filterTree := none })
    else do
      let root ← cleanQueryNode r.1
      .ok ({ q with root := root }, some { ranges := ranges, filterTree := some root })

end Secondary
