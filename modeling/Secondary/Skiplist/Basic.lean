import Secondary.Fault
import Secondary.Lib.Bucket

/-!
# Skiplist — `skiplist.c` over a store of nodes

Nodes live in a `Store` and point at each other by reference.  The header is a node without an
object; every other node has an object, the values stored under it, a backward pointer and as many
levels as were drawn for it.  The comparators (`sl->compare` with its context, and `sl->valcmp`)
are arguments of the operations, because a comparator reads objects through memory of its own and
may fault there.

Loops over forward pointers carry fuel, counted down from the number of nodes ever allocated; a
loop that runs out is a loop that does not end.
-/

namespace Secondary

open Lib

/-! ## Data -/

def skiplistMaxLevel : Nat := 32

/-- A number of levels that `skiplistRandomLevel` can return. -/
abbrev Level : Type :=
  {n : Nat // 1 ≤ n ∧ n ≤ skiplistMaxLevel}

structure SkiplistLevel where
  forward : Option Nat
  span : Nat
  deriving DecidableEq, Repr

structure SkiplistNode (K V : Type) where
  obj : Option K
  vals : List V
  backward : Option Nat
  level : List SkiplistLevel
  deriving DecidableEq, Repr

abbrev Nodes (K V : Type) : Type :=
  Store (SkiplistNode K V)

structure Skiplist (K V : Type) where
  header : Nat
  tail : Option Nat
  length : Nat
  level : Nat
  nodes : Nodes K V

variable {K V O : Type}

/-! ## Random levels -/

/-- `(random() & 0xFFFF) < (SKIPLIST_P * 0xFFFF)` with `SKIPLIST_P = 0.25`. -/
def levelUp (draw : Nat) : Bool :=
  4 * (draw % 65536) < 65535

/-- The level drawn when `random()` returns `draws` one after the other. -/
def skiplistRandomLevel (draws : List Nat) : Level :=
  let level := 1 + (draws.takeWhile levelUp).length
  ⟨if level < skiplistMaxLevel then level else skiplistMaxLevel, by
    have hmax : skiplistMaxLevel = 32 := rfl
    split <;> omega⟩

/-- Every level from 1 to `skiplistMaxLevel` is drawn by some sequence of random numbers. -/
theorem exists_draws (level : Level) : ∃ draws, skiplistRandomLevel draws = level := by
  refine ⟨List.replicate (level.val - 1) 0, Subtype.ext ?_⟩
  have hpos := level.property.1
  have hmax := level.property.2
  have htake : (List.replicate (level.val - 1) 0).takeWhile levelUp =
      List.replicate (level.val - 1) 0 := by
    simp [levelUp]
  show (if 1 + _ < skiplistMaxLevel then 1 + _ else skiplistMaxLevel) = level.val
  rw [htake, List.length_replicate]
  split <;> omega

/-! ## Reading and writing nodes -/

namespace Nodes

def levelAt? (ns : Nodes K V) (x i : Nat) : Option SkiplistLevel :=
  (ns.cell x).bind fun n => n.level[i]?

/-- `x->level[i]` -/
def levelAt (ns : Nodes K V) (x i : Nat) : Exec SkiplistLevel :=
  orFault (ns.levelAt? x i) .node

/-- `*x` -/
def node (ns : Nodes K V) (x : Nat) : Exec (SkiplistNode K V) :=
  orFault (ns.cell x) .node

/-- `x->obj`, about to be compared; the header has none. -/
def objAt (ns : Nodes K V) (x : Nat) : Exec K :=
  orFault ((ns.cell x).bind SkiplistNode.obj) .node

def updLevel (ns : Nodes K V) (x i : Nat) (f : SkiplistLevel → SkiplistLevel) : Nodes K V :=
  ns.modify x fun n => { n with level := n.level.modify i f }

def setBackward (ns : Nodes K V) (x : Nat) (b : Option Nat) : Nodes K V :=
  ns.modify x fun n => { n with backward := b }

/-- `if (f) f->backward = b` -/
def setBackward? (ns : Nodes K V) (f b : Option Nat) : Nodes K V :=
  match f with
  | some f => ns.setBackward f b
  | none => ns

def setVals (ns : Nodes K V) (x : Nat) (vs : List V) : Nodes K V :=
  ns.modify x fun n => { n with vals := vs }

end Nodes

def skiplistCreate (K V : Type) : Skiplist K V where
  header := (Store.empty : Nodes K V).next
  tail := none
  length := 0
  level := 1
  nodes := Store.empty.alloc
    { obj := none
      vals := []
      backward := none
      level := List.replicate skiplistMaxLevel { forward := none, span := 0 } }

/-! ## Searching -/

/-- The inner loop of every search, at level `i`: step forward while the next node's object is one
to pass, counting the rank that is crossed. -/
def walkLevel (ns : Nodes K V) (pass : K → Exec Bool) (i : Nat) : Nat → Nat → Nat → Exec (Nat × Nat)
  | 0, _, _ => .error .diverges
  | fuel + 1, x, rank => do
      let l ← ns.levelAt x i
      match l.forward with
      | none => .ok (x, rank)
      | some f => do
          let k ← ns.objAt f
          if ← pass k then
            walkLevel ns pass i fuel f (rank + l.span)
          else
            .ok (x, rank)

/-- The outer loop: `for (i = level - 1; i >= 0; i--)`.  Returns where the search ends and, for
each level, the node it left that level at with its rank (`update[i]`, `rank[i]`). -/
def descend (ns : Nodes K V) (pass : K → Exec Bool) : Nat → Nat → Nat → Exec (Nat × List (Nat × Nat))
  | 0, x, _ => .ok (x, [])
  | i + 1, x, rank => do
      let u ← walkLevel ns pass i ns.next x rank
      let r ← descend ns pass i u.1 u.2
      .ok (r.1, r.2 ++ [u])

def skiplistSearch (sl : Skiplist K V) (pass : K → Exec Bool) : Exec (Nat × List (Nat × Nat)) :=
  descend sl.nodes pass sl.level sl.header 0

/-- `sl->compare(k, obj) < 0` -/
def below (compare : K → O → Exec Int) (obj : O) (k : K) : Exec Bool := do
  let c ← compare k obj
  .ok (decide (c < 0))

/-- `x->level[0].forward && sl->compare(x->level[0].forward->obj, obj) == 0`, and that node. -/
def matchNext (ns : Nodes K V) (compare : K → O → Exec Int) (obj : O) (x : Nat) :
    Exec (Option Nat) := do
  let l ← ns.levelAt x 0
  match l.forward with
  | none => .ok none
  | some f => do
      let k ← ns.objAt f
      let c ← compare k obj
      .ok (if c = 0 then some f else none)

def skiplistFind (compare : K → O → Exec Int) (sl : Skiplist K V) (obj : O) :
    Exec (Option Nat) := do
  let r ← skiplistSearch sl (below compare obj)
  matchNext sl.nodes compare obj r.1

/-- `rc < 0 || (rc == 0 && exclusive)` -/
def belowBound (compare : K → O → Exec Int) (obj : O) (exclusive : Bool) (k : K) : Exec Bool := do
  let c ← compare k obj
  .ok (decide (c < 0 ∨ (c = 0 ∧ exclusive = true)))

def skiplistFindAtLeast (compare : K → O → Exec Int) (sl : Skiplist K V) (obj : O)
    (exclusive : Bool) : Exec (Option Nat) := do
  let r ← skiplistSearch sl (belowBound compare obj exclusive)
  let l ← sl.nodes.levelAt r.1 0
  .ok l.forward

/-! ## Inserting -/

/-- The values after appending; equal values are not stored twice. -/
def skiplistNodeAppendValue (valcmp : V → V → Int) (vals : List V) (val : V) : List V :=
  appendNew (fun x y => decide (valcmp x y = 0)) vals val

/-- `for (i = sl->level; i < level; i++) header->level[i].span = sl->length`, `n` levels of it. -/
def raiseSpans (ns : Nodes K V) (header length : Nat) : Nat → Nat → Nodes K V
  | _, 0 => ns
  | i, n + 1 =>
      raiseSpans (ns.updLevel header i fun l => { l with span := length }) header length (i + 1) n

/-- `for (; i < ...; i++)` over the entries of `update` from level `i` on. -/
def forLevels (step : Nat → Nat × Nat → Nodes K V → Exec (Nodes K V)) :
    Nat → List (Nat × Nat) → Nodes K V → Exec (Nodes K V)
  | _, [], ns => .ok ns
  | i, u :: us, ns => do
      let ns ← step i u ns
      forLevels step (i + 1) us ns

/-- Put `x` behind `update[i]`, splitting the span of the link there. -/
def linkLevel (x rank0 i : Nat) (u : Nat × Nat) (ns : Nodes K V) : Exec (Nodes K V) := do
  let lu ← ns.levelAt u.1 i
  let _ ← ns.levelAt x i
  let ns := ns.updLevel x i fun _ =>
    { forward := lu.forward, span := lu.span - (rank0 - u.2) }
  .ok (ns.updLevel u.1 i fun _ => { forward := some x, span := rank0 - u.2 + 1 })

/-- `update[i]->level[i].span++` -/
def touchLevel (i : Nat) (u : Nat × Nat) (ns : Nodes K V) : Exec (Nodes K V) := do
  let _ ← ns.levelAt u.1 i
  .ok (ns.updLevel u.1 i fun l => { l with span := l.span + 1 })

/-- Add a new node with `level` levels behind the nodes in `update`. -/
def skiplistInsertNode (sl : Skiplist K V) (obj : K) (val : V) (level : Level)
    (update : List (Nat × Nat)) : Exec (Skiplist K V) := do
  -- Levels that the list does not have yet are entered at the header.
  let extra := level.val - sl.level
  let nodes := raiseSpans sl.nodes sl.header sl.length sl.level extra
  let update := update ++ List.replicate extra (sl.header, 0)
  let x := nodes.next
  let nodes := nodes.alloc
    { obj := some obj
      vals := [val]
      backward := none
      level := List.replicate level.val { forward := none, span := 0 } }
  let u0 ← orFault update[0]? .bounds
  -- The links of the node's own levels; the higher ones cross it.
  let nodes ← forLevels (linkLevel x u0.2) 0 (update.take level.val) nodes
  let nodes ← forLevels touchLevel level.val (update.drop level.val) nodes
  let nodes := nodes.setBackward x (if u0.1 = sl.header then none else some u0.1)
  let lx ← nodes.levelAt x 0
  .ok
    { header := sl.header
      tail := if lx.forward.isSome then sl.tail else some x
      length := sl.length + 1
      level := max sl.level level.val
      nodes := nodes.setBackward? lx.forward (some x) }

/-- The returned node is left out: where the value is appended to an existing node the C function
runs off its end, and no caller reads the result. -/
def skiplistInsert (compare : K → K → Exec Int) (valcmp : V → V → Int) (sl : Skiplist K V)
    (obj : K) (val : V) (level : Level) : Exec (Skiplist K V) := do
  let r ← skiplistSearch sl (below compare obj)
  match ← matchNext sl.nodes compare obj r.1 with
  | some n => do
      let x ← sl.nodes.node n
      .ok { sl with nodes := sl.nodes.setVals n (skiplistNodeAppendValue valcmp x.vals val) }
  | none => skiplistInsertNode sl obj val level r.2

/-! ## Deleting -/

/-- Take `x` out behind `update[i]`, joining the spans; a link that does not lead to `x` crosses it
and gets one shorter. -/
def unlinkLevel (x i : Nat) (u : Nat × Nat) (ns : Nodes K V) : Exec (Nodes K V) := do
  let lu ← ns.levelAt u.1 i
  if lu.forward = some x then do
    let lx ← ns.levelAt x i
    .ok (ns.updLevel u.1 i fun _ => { forward := lx.forward, span := lu.span + lx.span - 1 })
  else
    .ok (ns.updLevel u.1 i fun l => { l with span := l.span - 1 })

/-- `while (sl->level > 1 && sl->header->level[sl->level - 1].forward == NULL) sl->level--` -/
def shrinkLevel (ns : Nodes K V) (header : Nat) : Nat → Exec Nat
  | 0 => .ok 0
  | n + 1 =>
      if n = 0 then
        .ok 1
      else do
        let l ← ns.levelAt header n
        if l.forward = none then
          shrinkLevel ns header n
        else
          .ok (n + 1)

def skiplistDeleteNode (sl : Skiplist K V) (x : Nat) (update : List (Nat × Nat)) :
    Exec (Skiplist K V) := do
  let nodes ← forLevels (unlinkLevel x) 0 update sl.nodes
  let nx ← nodes.node x
  let lx ← nodes.levelAt x 0
  let nodes := nodes.setBackward? lx.forward nx.backward
  let level ← shrinkLevel nodes sl.header sl.level
  .ok
    { header := sl.header
      tail := if lx.forward.isSome then sl.tail else nx.backward
      length := sl.length - 1
      level := level
      nodes := nodes }

/-- The values that stay when `val` is deleted; without a value none do. -/
def remainingVals (valcmp : V → V → Int) (val : Option V) (vals : List V) : List V :=
  match val with
  | none => []
  | some v => swapRemove (fun x => decide (valcmp v x = 0)) vals

def skiplistDelete (compare : K → K → Exec Int) (valcmp : V → V → Int) (sl : Skiplist K V)
    (obj : K) (val : Option V) : Exec (Skiplist K V × Bool) := do
  let r ← skiplistSearch sl (below compare obj)
  match ← matchNext sl.nodes compare obj r.1 with
  | none => .ok (sl, false)
  | some n => do
      let x ← sl.nodes.node n
      let vals := remainingVals valcmp val x.vals
      if vals = [] then do
        let sl' ← skiplistDeleteNode sl n r.2
        .ok ({ sl' with nodes := sl'.nodes.free n }, true)
      else
        .ok ({ sl with nodes := sl.nodes.setVals n vals }, true)

def skiplistPopHead (compare : K → K → Exec Int) (valcmp : V → V → Int) (sl : Skiplist K V) :
    Exec (Skiplist K V × Option K) := do
  let l ← sl.nodes.levelAt sl.header 0
  match l.forward with
  | none => .ok (sl, none)
  | some x => do
      let ptr ← sl.nodes.objAt x
      let r ← skiplistDelete compare valcmp sl ptr none
      .ok (r.1, some ptr)

def skiplistPopTail (compare : K → K → Exec Int) (valcmp : V → V → Int) (sl : Skiplist K V) :
    Exec (Skiplist K V × Option K) :=
  match sl.tail with
  | none => .ok (sl, none)
  | some x => do
      let ptr ← sl.nodes.objAt x
      let r ← skiplistDelete compare valcmp sl ptr none
      .ok (r.1, some ptr)

/-! ## Iterating -/

structure SkiplistIterator (O : Type) where
  current : Option Nat
  currentValOffset : Nat
  rangeMin : Option O
  minExclusive : Bool
  rangeMax : Option O
  maxExclusive : Bool

/-- `c > 0 || (c == 0 && maxExclusive)` for the comparison of `k` with the end of the range. -/
def aboveBound (compare : K → O → Exec Int) (max : O) (exclusive : Bool) (k : K) : Exec Bool := do
  let c ← compare k max
  .ok (decide (0 < c ∨ (c = 0 ∧ exclusive = true)))

/-- The node, unless it is past the end of the range; without an end every node is within it. -/
def clipNode (compare : K → O → Exec Int) (ns : Nodes K V) (max : Option O) (exclusive : Bool)
    (n : Option Nat) : Exec (Option Nat) :=
  match n, max with
  | some x, some m => do
      let k ← ns.objAt x
      if ← aboveBound compare m exclusive k then
        .ok none
      else
        .ok (some x)
  | n, _ => .ok n

def skiplistIterateRange (compare : K → O → Exec Int) (sl : Skiplist K V) (min : O)
    (max : Option O) (minExclusive maxExclusive : Bool) : Exec (SkiplistIterator O) := do
  let n ← skiplistFindAtLeast compare sl min minExclusive
  let n ← clipNode compare sl.nodes max maxExclusive n
  .ok
    { current := n
      currentValOffset := 0
      rangeMin := some min
      minExclusive := minExclusive
      rangeMax := max
      maxExclusive := maxExclusive }

def skiplistIterateAll (sl : Skiplist K V) : SkiplistIterator O where
  current := some sl.header
  currentValOffset := 0
  rangeMin := none
  minExclusive := false
  rangeMax := none
  maxExclusive := false

def skiplistIteratorNext (compare : K → O → Exec Int) (sl : Skiplist K V)
    (it : SkiplistIterator O) : Exec (SkiplistIterator O × Option V) :=
  match it.current with
  | none => .ok (it, none)
  | some x => do
      let n ← sl.nodes.node x
      let ret := n.vals[it.currentValOffset]?
      let offset := if it.currentValOffset < n.vals.length then it.currentValOffset + 1
        else it.currentValOffset
      if offset = n.vals.length then do
        -- The values of the node are used up: on to the next one, if it is in the range.
        let l ← sl.nodes.levelAt x 0
        let current ← clipNode compare sl.nodes it.rangeMax it.maxExclusive l.forward
        .ok ({ it with current := current, currentValOffset := 0 }, ret)
      else
        .ok ({ it with currentValOffset := offset }, ret)

end Secondary
