import Mathlib.Algebra.GroupWithZero.Nat
import Secondary.Index
import Secondary.Query.Plan

/-!
# Find — cursors over an index, and traversing it

`compoundIndex_Find` plans a query and returns a cursor, whose `Next` is `scan_next`: it goes
through the scan ranges one after the other and returns the ids of the nodes whose key passes the
filter.
-/

namespace Secondary

open Lib

/-- An upper bound of what a scan of one range goes through: the values of all nodes. -/
def Nodes.numValues {K V : Type} (ns : Nodes K V) : Nat :=
  ((List.range ns.next).map fun x => ((ns.cell x).map fun n => n.vals.length).getD 0).sum

/-- `ciScanCtx`; the iterator is assigned when there is a range to scan. -/
structure CiScanCtx where
  plan : SIQueryPlan
  currentScanRange : Nat
  it : Option (SkiplistIterator SIMultiKey)

/-- `Next` is `scan_next` wherever `ctx` is set. -/
structure SICursor where
  error : Int
  ctx : Option CiScanCtx

def siCursorOk : Int := 0

def siCursorError : Int := 1

namespace CompoundIndex

/-- `sl->compare` on the key of a node and the end of a range. -/
def compareBound (idx : CompoundIndex) : KeyRef → SIMultiKey → Exec Int :=
  Secondary.compareBound idx.cmpFuncs idx.keys

/-- `skiplistIterateRange` on a scan range of a plan. -/
def iterateRange (idx : CompoundIndex) (cr : SIPlanRange) : Exec (SkiplistIterator SIMultiKey) :=
  skiplistIterateRange idx.compareBound idx.sl cr.min (some cr.max) cr.minExclusive cr.maxExclusive

end CompoundIndex

/-- `scanCtx_CurrentRange` -/
def CiScanCtx.currentRange (c : CiScanCtx) : Option SIPlanRange :=
  c.plan.ranges[c.currentScanRange]?

/-- `if (cr) it = skiplistIterateRange(...)` -/
def CiScanCtx.startRange (idx : CompoundIndex) (sc : CiScanCtx) : Exec CiScanCtx :=
  match sc.currentRange with
  | none => .ok sc
  | some cr => do
      let it ← idx.iterateRange cr
      .ok { sc with it := some it }

/-- Whether the filter lets the node that the iterator stands at pass. -/
def passesFilter (idx : CompoundIndex) (plan : SIQueryPlan) (n : Nat) : Exec Bool := do
  let obj ← idx.sl.nodes.objAt n
  match plan.filterTree with
  | none => .ok true
  | some tree => do
      let mk ← readKey idx.keys obj
      evalKey mk idx.cmpFuncs tree

/-- The loops of `scan_next`.  A round takes a value off the current range or starts the next
range. -/
def scanLoop (idx : CompoundIndex) : Nat → CiScanCtx → Exec (CiScanCtx × Option SIId)
  | 0, _ => .error .diverges
  | fuel + 1, sc =>
      if sc.currentScanRange < sc.plan.ranges.length then do
        let it ← orFault sc.it .unset
        match it.current with
        | some n => do
            let ok ← passesFilter idx sc.plan n
            let r ← skiplistIteratorNext idx.compareBound idx.sl it
            let sc := { sc with it := some r.1 }
            if ok then
              .ok (sc, r.2)
            else
              scanLoop idx fuel sc
        | none => do
            let sc ← { sc with currentScanRange := sc.currentScanRange + 1 }.startRange idx
            scanLoop idx fuel sc
      else
        .ok (sc, none)

/-- A rule for the loops of `scan_next`: `I` is kept, and the failure `e` avoided, where taking a
value and entering a range do so. -/
theorem scanLoop_ends {idx : CompoundIndex} {e : Fault} {I : CiScanCtx → Prop}
    (hdiverges : Fault.diverges ≠ e) (hunset : Fault.unset ≠ e)
    (hvalue : ∀ {sc it n}, I sc → sc.currentScanRange < sc.plan.ranges.length → sc.it = some it →
      it.current = some n → Avoids (passesFilter idx sc.plan n) e ∧
        Ends (skiplistIteratorNext idx.compareBound idx.sl it) e fun r =>
          I { sc with it := some r.1 })
    (hrange : ∀ {sc : CiScanCtx}, I sc → sc.currentScanRange < sc.plan.ranges.length →
      Ends (CiScanCtx.startRange idx { sc with currentScanRange := sc.currentScanRange + 1 }) e I) :
    ∀ fuel sc, I sc → Ends (scanLoop idx fuel sc) e fun r => I r.1
  | 0, _, _ => ⟨avoids_error hdiverges, fun _ h => by cases h⟩
  | fuel + 1, sc, hI => by
      unfold scanLoop
      split_ifs with hlt
      · refine (avoids_orFault hunset).ends.bind fun it hit _ => ?_
        have hscit : sc.it = some it := orFault_eq_ok.1 hit
        cases hcurrent : it.current with
        | none =>
            refine (hrange hI hlt).bind fun sc' _ hI' => ?_
            exact scanLoop_ends hdiverges hunset hvalue hrange fuel sc' hI'
        | some n =>
            obtain ⟨hpass, hnext⟩ := hvalue hI hlt hscit hcurrent
            refine hpass.ends.bind fun ok _ _ => hnext.bind fun r _ hI' => ?_
            cases ok with
            | true => exact ends_ok hI'
            | false => exact scanLoop_ends hdiverges hunset hvalue hrange fuel _ hI'
      · exact ends_ok hI

/-- `scan_next`.  A range is over after as many rounds as there are values. -/
def scanNext (idx : CompoundIndex) (sc : CiScanCtx) : Exec (CiScanCtx × Option SIId) :=
  scanLoop idx ((sc.plan.ranges.length + 1) * (idx.sl.nodes.numValues + 1) + 1) sc

/-- `compoundIndex_Find`; planning changes the query. -/
def compoundIndexFind (idx : CompoundIndex) (q : SIQuery) : Exec (SIQuery × SICursor) :=
  if q.numPredicates = 0 then
    .ok (q, { error := siCursorError, ctx := none })
  else do
    let r ← siBuildQueryPlan q idx.spec
    match r.2 with
    | none => .ok (r.1, { error := siCursorError, ctx := none })
    | some plan => do
        let sctx ← CiScanCtx.startRange idx { plan := plan, currentScanRange := 0, it := none }
        .ok (r.1, { error := siCursorOk, ctx := some sctx })

/-- Calling `Next` until it returns NULL returns the given ids. -/
inductive Drains (idx : CompoundIndex) : CiScanCtx → List SIId → Prop
  | done {sc sc' : CiScanCtx} (next : scanNext idx sc = .ok (sc', none)) : Drains idx sc []
  | next {sc sc' : CiScanCtx} {id : SIId} {ids : List SIId}
      (next : scanNext idx sc = .ok (sc', some id)) (rest : Drains idx sc' ids) :
      Drains idx sc (id :: ids)

/-! ## Traversing -/

/-- The loop of a full walk, with `visit` for what it does with the values and the key of the node
it stands at; then the iterator goes on by one value. -/
def walkLoop {α : Type} (idx : CompoundIndex) (visit : List SIId → Option KeyRef → List α) :
    Nat → SkiplistIterator SIMultiKey → Exec (List α)
  | 0, _ => .error .diverges
  | fuel + 1, it =>
      match it.current with
      | none => .ok []
      | some n => do
          let x ← idx.sl.nodes.node n
          let r ← skiplistIteratorNext idx.compareBound idx.sl it
          let rest ← walkLoop idx visit fuel r.1
          .ok (visit x.vals x.obj ++ rest)

/-- The calls of the visitor at a node: one for every value. -/
def visitNode (vals : List SIId) (obj : Option KeyRef) : List (SIId × Option KeyRef) :=
  vals.map fun id => (id, obj)

/-- `compoundIndex_Traverse`: the ids and keys that the visitor gets. -/
def compoundIndexTraverse (idx : CompoundIndex) : Exec (List (SIId × Option KeyRef)) :=
  walkLoop idx visitNode (idx.sl.nodes.numValues + 2) (skiplistIterateAll idx.sl)

/-- What `compoundIndex_Free` passes to `free` and to `SIMultiKey_Free`. -/
inductive Freed
  | id (id : SIId)
  | key (key : KeyRef)
  deriving DecidableEq

/-- The body of its loop: the values of the node, then its key if it has one. -/
def freeNode (vals : List SIId) (obj : Option KeyRef) : List Freed :=
  vals.map Freed.id ++ obj.toList.map Freed.key

/-- `compoundIndex_Free`: the ids and keys that it frees, in order. -/
def compoundIndexFree (idx : CompoundIndex) : Exec (List Freed) :=
  walkLoop idx freeNode (idx.sl.nodes.numValues + 2) (skiplistIterateAll idx.sl)

end Secondary
