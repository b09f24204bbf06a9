import Mathlib.Algebra.Order.BigOperators.Group.List
import Mathlib.Algebra.Order.Group.Nat
import Mathlib.Data.List.Flatten
import Secondary.Find
import Secondary.IndexMap
import Secondary.Query.PlanSpec

/-!
# FindSpec — what a cursor returns

While a cursor goes through a well-formed index, `toReturn` is the list of the ids that it has
still to return: those of the nodes of the current range that are still to come, then those of the
later ranges, the filter applied to the key of each node.  A call of `Next` takes the head off this
list, so draining the cursor returns all of it.
-/

namespace Secondary

open Lib

/-! ## The list -/

/-- The nodes are a skiplist of live tuples that ascend. -/
structure ListInv (idx : CompoundIndex) (bs : List (Bucket KeyRef SIId)) : Prop where
  cmpFuncs : CmpFuncsOf idx.spec.types idx.cmpFuncs
  rep : Rep idx.sl bs
  sorted : Bucket.Sorted idx.refCmp bs
  nonempty : ∀ b ∈ bs, b.vals ≠ []
  key_live : ∀ {b}, b ∈ bs → idx.KeyLive b.key

theorem IndexInv.list {idx : CompoundIndex} {bs : List (Bucket KeyRef SIId)}
    (h : IndexInv idx bs) : ListInv idx bs where
  cmpFuncs := h.cmpFuncs
  rep := h.rep
  sorted := h.sorted
  nonempty := h.nonempty
  key_live := h.key_live

/-! ## Keys against bounds -/

/-- The value of `SICmpMultiKey` on the key of a node and the end of a range. -/
def boundCmp (idx : CompoundIndex) (bound : SIMultiKey) (k : KeyRef) : Int :=
  returned (idx.compareBound k bound)

/-- The key is before the range. -/
def belowRange (idx : CompoundIndex) (r : SIPlanRange) (k : KeyRef) : Bool :=
  decide (boundCmp idx r.min k < 0 ∨ (boundCmp idx r.min k = 0 ∧ r.minExclusive = true))

/-- The key is past the range. -/
def aboveRange (idx : CompoundIndex) (r : SIPlanRange) (k : KeyRef) : Bool :=
  decide (0 < boundCmp idx r.max k ∨ (boundCmp idx r.max k = 0 ∧ r.maxExclusive = true))

def inScan (idx : CompoundIndex) (r : SIPlanRange) (k : KeyRef) : Bool :=
  !belowRange idx r k && !aboveRange idx r k

/-- The ends of the range fit the columns, and have as many of them. -/
def RangeOk (types : List SIType) (r : SIPlanRange) : Prop :=
  BoundsOk types r.min ∧ BoundsOk types r.max ∧ r.min.length = r.max.length

/-- The places of the key of a node. -/
def CompoundIndex.places (idx : CompoundIndex) (k : KeyRef) : List Place :=
  refPlaces idx.keys k

section Ranges

variable {idx : CompoundIndex} {bs : List (Bucket KeyRef SIId)} {r : SIPlanRange} {k : KeyRef}

theorem compareBound_signs (h : ListInv idx bs) (hk : idx.KeyLive k) {bound : SIMultiKey}
    (hb : BoundsOk idx.spec.types bound) :
    idx.compareBound k bound = .ok (boundCmp idx bound k) ∧
      Signs (boundCmp idx bound k) ((idx.places k).take bound.length) (places bound) := by
  obtain ⟨mk, hcell, hok⟩ := hk
  obtain ⟨c, hc, hsigns⟩ := siCmpMultiKey_signs h.cmpFuncs hok hb
  have hrun : idx.compareBound k bound = .ok c := by
    simp [CompoundIndex.compareBound, Secondary.compareBound, readKey_of_cell hcell, hc]
  have hcmp : boundCmp idx bound k = c := by simp [boundCmp, hrun, returned]
  rw [hcmp]
  exact ⟨hrun, by simpa [CompoundIndex.places, refPlaces, hcell] using hsigns⟩

theorem belowRange_iff (h : ListInv idx bs) (hk : idx.KeyLive k)
    (hr : RangeOk idx.spec.types r) :
    belowRange idx r k = true ↔ r.interval.Below ((idx.places k).take r.min.length) := by
  have hsigns := (compareBound_signs h hk hr.1).2
  rw [belowRange, decide_eq_true_eq, hsigns.1, hsigns.2]
  rfl

theorem aboveRange_iff (h : ListInv idx bs) (hk : idx.KeyLive k)
    (hr : RangeOk idx.spec.types r) :
    aboveRange idx r k = true ↔ r.interval.Above ((idx.places k).take r.min.length) := by
  have hsigns := (compareBound_signs h hk hr.2.1).2
  rw [aboveRange, decide_eq_true_eq, hsigns.pos_iff, hsigns.2, hr.2.2]
  rfl

/-- A key is scanned when its first columns are in the interval of the range. -/
theorem inScan_iff (h : ListInv idx bs) (hk : idx.KeyLive k) (hr : RangeOk idx.spec.types r) :
    inScan idx r k = true ↔ r.interval.Holds ((idx.places k).take r.min.length) := by
  rw [inScan, Bool.and_eq_true, Bool.not_eq_true', Bool.not_eq_true', ← Bool.not_eq_true,
    ← Bool.not_eq_true, belowRange_iff h hk hr, aboveRange_iff h hk hr]
  rfl

/-- The keys of a sorted list ascend, also by their first columns. -/
theorem take_places_le (h : ListInv idx bs) (n : Nat) :
    bs.Pairwise fun a b => (idx.places a.key).take n ≤ (idx.places b.key).take n := by
  refine List.Pairwise.imp_of_mem ?_ h.sorted
  intro a b ha hb hab
  have hlt := (compareKeys_signs h.cmpFuncs (h.key_live ha) (h.key_live hb)).2.1.1 hab
  exact LexInterval.take_le_take n (le_of_lt hlt)

theorem cut_belowRange (h : ListInv idx bs) (hr : RangeOk idx.spec.types r) :
    Cut (fun b : Bucket KeyRef SIId => belowRange idx r b.key) bs := by
  refine List.Pairwise.imp_of_mem ?_ (take_places_le h r.min.length)
  intro a b ha hb hab hbelow
  rw [belowRange_iff h (h.key_live hb) hr] at hbelow
  rw [belowRange_iff h (h.key_live ha) hr]
  exact hbelow.mono hab

theorem cut_aboveRange (h : ListInv idx bs) (hr : RangeOk idx.spec.types r) :
    Cut (fun b : Bucket KeyRef SIId => !aboveRange idx r b.key) bs := by
  refine List.Pairwise.imp_of_mem ?_ (take_places_le h r.min.length)
  intro a b ha hb hab hnot
  rw [Bool.not_eq_true', ← Bool.not_eq_true, aboveRange_iff h (h.key_live hb) hr] at hnot
  rw [Bool.not_eq_true', ← Bool.not_eq_true, aboveRange_iff h (h.key_live ha) hr]
  exact fun habove => hnot (habove.mono hab)

/-- The buckets of a range are those whose key is in it. -/
theorem inRange_eq_filter (h : ListInv idx bs) (hr : RangeOk idx.spec.types r) :
    inRange (belowRange idx r) (aboveRange idx r) bs =
      bs.filter fun b => inScan idx r b.key := by
  have hcut : Cut (fun b : Bucket KeyRef SIId => !aboveRange idx r b.key)
      (bs.filter fun b => !belowRange idx r b.key) :=
    (cut_aboveRange h hr).sublist List.filter_sublist
  rw [inRange, (cut_belowRange h hr).dropWhile_eq_filter, hcut.takeWhile_eq_filter,
    List.filter_filter]
  refine List.filter_congr fun b _ => ?_
  rw [inScan, Bool.and_comm]

theorem clipsAt_aboveRange (h : ListInv idx bs) (hr : RangeOk idx.spec.types r) :
    ClipsAt idx.compareBound (some r.max) r.maxExclusive (aboveRange idx r) bs := by
  intro b hb
  simp [aboveBound, (compareBound_signs h (h.key_live hb) hr.2.1).1, aboveRange]

/-- `skiplistIterateRange` on a scan range. -/
theorem iterateRange_spec (h : ListInv idx bs) (hr : RangeOk idx.spec.types r) :
    ∃ it, idx.iterateRange r = .ok it ∧ it.rangeMax = some r.max ∧
      it.maxExclusive = r.maxExclusive ∧
      IterAt bs (aboveRange idx r) it (bs.filter fun b => inScan idx r b.key) := by
  have hcompares : Compares idx.compareBound r.min (boundCmp idx r.min) bs :=
    fun b hb => (compareBound_signs h (h.key_live hb) hr.1).1
  obtain ⟨it, hrun, hmax, hexcl, hit⟩ := h.rep.iterateRange h.nonempty hcompares r.minExclusive
    r.maxExclusive (clipsAt_aboveRange h hr) (cut_belowRange h hr)
  refine ⟨it, hrun, hmax, hexcl, ?_⟩
  rw [← inRange_eq_filter h hr]
  exact hit

end Ranges

/-! ## The filter -/

/-- Whether the filter lets the node pass. -/
def passes (idx : CompoundIndex) (plan : SIQueryPlan) (n : Nat) : Bool :=
  match passesFilter idx plan n with
  | .ok b => b
  | .error _ => false

/-- What the filter of a plan says of a tuple with the places `xs`. -/
def FilterSays (plan : SIQueryPlan) (xs : List Place) : Prop :=
  ∀ t ∈ plan.filterTree, TreeHolds (AtPlace FilterHoldsAt xs) t

/-- A plan whose ranges and filter fit the columns. -/
structure PlanOk (types : List SIType) (plan : SIQueryPlan) : Prop where
  ranges : ∀ r ∈ plan.ranges, RangeOk types r
  filter : ∀ t ∈ plan.filterTree, QueryOk types t

section Filter

variable {idx : CompoundIndex} {bs : List (Bucket KeyRef SIId)} {plan : SIQueryPlan}

theorem passesFilter_spec (h : ListInv idx bs) (hplan : PlanOk idx.spec.types plan)
    {b : Bucket KeyRef SIId} (hb : b ∈ bs) :
    passesFilter idx plan b.tag = .ok (passes idx plan b.tag) ∧
      (passes idx plan b.tag = true ↔ FilterSays plan (idx.places b.key)) := by
  obtain ⟨mk, hcell, hok⟩ := h.key_live hb
  have hobj := Nodes.objAt_of_some (h.rep.obj b hb)
  have hplaces : idx.places b.key = places mk := by
    simp [CompoundIndex.places, refPlaces, hcell]
  suffices hrun : ∃ p, passesFilter idx plan b.tag = .ok p ∧
      (p = true ↔ FilterSays plan (idx.places b.key)) by
    obtain ⟨p, hp, hiff⟩ := hrun
    have hbit : passes idx plan b.tag = p := by simp [passes, hp]
    rw [hbit]
    exact ⟨hp, hiff⟩
  cases htree : plan.filterTree with
  | none => exact ⟨true, by simp [passesFilter, hobj, htree], by simp [FilterSays, htree]⟩
  | some t =>
      have ht := hplan.filter t (by simp [htree])
      obtain ⟨p, hp, hiff⟩ := evalKey_spec h.cmpFuncs hok ht
      refine ⟨p, by simp [passesFilter, hobj, htree, readKey_of_cell hcell, hp], ?_⟩
      rw [hiff, passesFilter_iff h.cmpFuncs hok ht, hplaces]
      simp [FilterSays, htree]

end Filter

/-! ## What is still to come -/

/-- The ids of buckets that pass the filter. -/
def passing (idx : CompoundIndex) (plan : SIQueryPlan) (bs : List (Bucket KeyRef SIId)) :
    List SIId :=
  Bucket.allVals (bs.filter fun b => passes idx plan b.tag)

/-- The ids that a scan of one range returns. -/
def rangeIds (idx : CompoundIndex) (plan : SIQueryPlan) (bs : List (Bucket KeyRef SIId))
    (r : SIPlanRange) : List SIId :=
  passing idx plan (bs.filter fun b => inScan idx r b.key)

/-- The ids that the scan of all ranges returns. -/
def planIds (idx : CompoundIndex) (plan : SIQueryPlan) (bs : List (Bucket KeyRef SIId)) :
    List SIId :=
  plan.ranges.flatMap (rangeIds idx plan bs)

/-- The buckets of the range that the cursor is to start. -/
def startBuckets (idx : CompoundIndex) (bs : List (Bucket KeyRef SIId)) (sc : CiScanCtx) :
    List (Bucket KeyRef SIId) :=
  match sc.currentRange with
  | none => []
  | some r => bs.filter fun b => inScan idx r b.key

/-- The ids that a cursor has still to return, where `pending` is left of the current range. -/
def toReturn (idx : CompoundIndex) (bs : List (Bucket KeyRef SIId)) (sc : CiScanCtx)
    (pending : List (Bucket KeyRef SIId)) : List SIId :=
  passing idx sc.plan pending ++
    (sc.plan.ranges.drop (sc.currentScanRange + 1)).flatMap (rangeIds idx sc.plan bs)

/-- The cursor goes through the index, with `pending` left of the current range. -/
def ScanAt (idx : CompoundIndex) (bs : List (Bucket KeyRef SIId)) (sc : CiScanCtx)
    (pending : List (Bucket KeyRef SIId)) : Prop :=
  match sc.currentRange with
  | none => pending = []
  | some r => ∃ it, sc.it = some it ∧ it.rangeMax = some r.max ∧
      it.maxExclusive = r.maxExclusive ∧ IterAt bs (aboveRange idx r) it pending

/-- An upper bound of the rounds that are still to come. -/
def rounds (bs : List (Bucket KeyRef SIId)) (sc : CiScanCtx)
    (pending : List (Bucket KeyRef SIId)) : Nat :=
  (sc.plan.ranges.length - sc.currentScanRange) * ((Bucket.allVals bs).length + 1) +
    (Bucket.allVals pending).length

section Scan

variable {idx : CompoundIndex} {bs pending : List (Bucket KeyRef SIId)} {sc : CiScanCtx}

/-- Taking one value off the front of the current range. -/
theorem passing_advance (idx : CompoundIndex) (plan : SIQueryPlan) (b : Bucket KeyRef SIId)
    (cs : List (Bucket KeyRef SIId)) {v : SIId} {vs : List SIId} (hb : b.vals = v :: vs) :
    passing idx plan (b :: cs) =
      (if passes idx plan b.tag then [v] else []) ++ passing idx plan (advance (b :: cs)) := by
  cases hp : passes idx plan b.tag with
  | true =>
      cases vs with
      | nil => simp [passing, advance, hb, hp]
      | cons w vs => simp [passing, advance, hb, hp]
  | false =>
      cases vs with
      | nil => simp [passing, advance, hb, hp]
      | cons w vs => simp [passing, advance, hb, hp]

/-- The next range is entered at its first node. -/
theorem startRange_spec (h : ListInv idx bs) (hplan : PlanOk idx.spec.types sc.plan) :
    ∃ sc', sc.startRange idx = .ok sc' ∧ sc'.plan = sc.plan ∧
      sc'.currentScanRange = sc.currentScanRange ∧
      ScanAt idx bs sc' (startBuckets idx bs sc) := by
  cases hr : sc.currentRange with
  | none =>
      exact ⟨sc, by simp [CiScanCtx.startRange, hr], rfl, rfl, by simp [ScanAt, startBuckets, hr]⟩
  | some r =>
      have hmem : r ∈ sc.plan.ranges := List.mem_of_getElem? hr
      obtain ⟨it, hrun, hmax, hexcl, hit⟩ := iterateRange_spec h (hplan.ranges r hmem)
      refine ⟨{ sc with it := some it }, by simp [CiScanCtx.startRange, hr, hrun], rfl, rfl, ?_⟩
      have hr' : ({ sc with it := some it } : CiScanCtx).currentRange = some r := hr
      simp only [ScanAt, startBuckets, hr, hr']
      exact ⟨it, rfl, hmax, hexcl, hit⟩

/-- What is still to come when a range is entered. -/
theorem toReturn_start {sc' : CiScanCtx} (hplan : sc'.plan = sc.plan)
    (hcur : sc'.currentScanRange = sc.currentScanRange) :
    toReturn idx bs sc' (startBuckets idx bs sc) =
      (sc.plan.ranges.drop sc.currentScanRange).flatMap (rangeIds idx sc.plan bs) := by
  simp only [toReturn, startBuckets, CiScanCtx.currentRange, hplan, hcur]
  cases hr : sc.plan.ranges[sc.currentScanRange]? with
  | none =>
      have hlen := List.getElem?_eq_none_iff.1 hr
      rw [List.drop_eq_nil_iff.2 hlen, List.drop_eq_nil_iff.2 (by omega)]
      rfl
  | some r =>
      obtain ⟨hlt, rfl⟩ := List.getElem?_eq_some_iff.1 hr
      rw [List.drop_eq_getElem_cons hlt, List.flatMap_cons]
      rfl

theorem length_allVals_filter_le (p : Bucket KeyRef SIId → Bool) (bs : List (Bucket KeyRef SIId)) :
    (Bucket.allVals (bs.filter p)).length ≤ (Bucket.allVals bs).length := by
  induction bs with
  | nil => exact Nat.le_refl _
  | cons b bs ih =>
      cases hp : p b with
      | true => simpa [hp] using ih
      | false =>
          simp only [List.filter_cons, hp, Bucket.allVals_cons, List.length_append]
          exact Nat.le_trans ih (Nat.le_add_left _ _)

theorem length_startBuckets_le (idx : CompoundIndex) (bs : List (Bucket KeyRef SIId))
    (sc : CiScanCtx) :
    (Bucket.allVals (startBuckets idx bs sc)).length ≤ (Bucket.allVals bs).length := by
  rw [startBuckets]
  split
  · exact Nat.zero_le _
  · exact length_allVals_filter_le _ bs

/-- Entering the next range leaves fewer rounds. -/
theorem rounds_between (idx : CompoundIndex) (bs : List (Bucket KeyRef SIId))
    {sc₁ sc' : CiScanCtx} (hplan₁ : sc₁.plan = sc.plan)
    (hcur₁ : sc₁.currentScanRange = sc.currentScanRange + 1) (hplan : sc'.plan = sc₁.plan)
    (hcur : sc'.currentScanRange = sc₁.currentScanRange)
    (hlt : sc.currentScanRange < sc.plan.ranges.length) :
    rounds bs sc' (startBuckets idx bs sc₁) < rounds bs sc [] := by
  have hle := length_startBuckets_le idx bs sc₁
  obtain ⟨m, hm⟩ : ∃ m, sc.plan.ranges.length - sc.currentScanRange = m + 1 :=
    ⟨sc.plan.ranges.length - sc.currentScanRange - 1, by omega⟩
  have hm' : sc.plan.ranges.length - (sc.currentScanRange + 1) = m := by omega
  simp only [rounds, hplan, hplan₁, hcur, hcur₁, hm, hm', Bucket.allVals_nil, List.length_nil,
    Nat.add_zero, Nat.succ_mul]
  omega

/-- A round where the current range is over enters the next one: what is to be returned stays, and
fewer rounds are left. -/
theorem enterRange_spec (h : ListInv idx bs) (hplan : PlanOk idx.spec.types sc.plan)
    (hlt : sc.currentScanRange < sc.plan.ranges.length) :
    ∃ sc' pending, CiScanCtx.startRange idx { sc with currentScanRange := sc.currentScanRange + 1 } =
        .ok sc' ∧
      sc'.plan = sc.plan ∧ ScanAt idx bs sc' pending ∧
      toReturn idx bs sc' pending = toReturn idx bs sc [] ∧
      rounds bs sc' pending < rounds bs sc [] := by
  obtain ⟨sc₁, hsc₁⟩ : ∃ sc₁ : CiScanCtx,
      sc₁ = { sc with currentScanRange := sc.currentScanRange + 1 } := ⟨_, rfl⟩
  have hplan₁ : sc₁.plan = sc.plan := by rw [hsc₁]
  have hcur₁ : sc₁.currentScanRange = sc.currentScanRange + 1 := by rw [hsc₁]
  obtain ⟨sc', hstart, hplan', hcur', hat⟩ := startRange_spec h (hplan₁ ▸ hplan)
  rw [← hsc₁]
  refine ⟨sc', startBuckets idx bs sc₁, hstart, hplan'.trans hplan₁, hat, ?_,
    rounds_between idx bs hplan₁ hcur₁ hplan' hcur' hlt⟩
  rw [toReturn_start hplan' hcur', hplan₁, hcur₁]
  rfl

/-- A round at a node takes the next value of the node: it is returned if the node passes the
filter, and either way what follows it is still to come. -/
theorem takeValue_spec (h : ListInv idx bs) (hplan : PlanOk idx.spec.types sc.plan)
    (hlt : sc.currentScanRange < sc.plan.ranges.length) {it : SkiplistIterator SIMultiKey} {x : Nat}
    (hat : ScanAt idx bs sc pending) (hscit : sc.it = some it) (hcurrent : it.current = some x) :
    ∃ it' v, passesFilter idx sc.plan x = .ok (passes idx sc.plan x) ∧
      skiplistIteratorNext idx.compareBound idx.sl it = .ok (it', some v) ∧
      ScanAt idx bs { sc with it := some it' } (advance pending) ∧
      toReturn idx bs sc pending = (if passes idx sc.plan x then [v] else []) ++
        toReturn idx bs { sc with it := some it' } (advance pending) ∧
      rounds bs { sc with it := some it' } (advance pending) + 1 = rounds bs sc pending := by
  obtain ⟨r, hr⟩ : ∃ r, sc.currentRange = some r := ⟨_, List.getElem?_eq_getElem hlt⟩
  simp only [ScanAt, hr] at hat
  obtain ⟨it₀, hit₀, hmax, hexcl, hit⟩ := hat
  obtain rfl : it₀ = it := Option.some.inj (hit₀.symm.trans hscit)
  -- The iterator clips at the end of the range, and goes on by one value.
  have hclip := clipsAt_aboveRange h (hplan.ranges r (List.mem_of_getElem? hr))
  rw [← hmax, ← hexcl] at hclip
  obtain ⟨it', hnext, hmax', hexcl', hit'⟩ := h.rep.iteratorNext h.nonempty hclip hit
  have hat' : ScanAt idx bs { sc with it := some it' } (advance pending) := by
    have hr' : ({ sc with it := some it' } : CiScanCtx).currentRange = some r := hr
    simp only [ScanAt, hr']
    exact ⟨it', rfl, hmax'.trans hmax, hexcl'.trans hexcl, hit'⟩
  cases hit with
  | done hdone => simp [hdone] at hcurrent
  | «at» as b cs split current offset _ =>
      obtain rfl : b.tag = x := Option.some.inj (current.symm.trans hcurrent)
      have hb : b ∈ bs := by simp [split]
      -- The node has a value that was not taken yet.
      obtain ⟨v, vs, hvs⟩ : ∃ v vs, b.vals.drop it₀.currentValOffset = v :: vs := by
        cases hd : b.vals.drop it₀.currentValOffset with
        | nil =>
            have := List.drop_eq_nil_iff.1 hd
            omega
        | cons v vs => exact ⟨v, vs, rfl⟩
      have hfront := passing_advance idx sc.plan
        { b with vals := b.vals.drop it₀.currentValOffset }
        (cs.takeWhile fun d => !aboveRange idx r d.key) hvs
      have hone := length_allVals_advance
        (b := { b with vals := b.vals.drop it₀.currentValOffset })
        (cs.takeWhile fun d => !aboveRange idx r d.key) (by simp [hvs])
      refine ⟨it', v, (passesFilter_spec h hplan hb).1, ?_, hat', ?_, ?_⟩
      · rw [hnext]
        simp [hvs]
      · simp only [toReturn, hfront, List.append_assoc]
      · simp only [rounds, hone, Nat.add_assoc]

/-- A call of `Next` takes the first id that is still to come. -/
theorem scanLoop_spec (h : ListInv idx bs) :
    ∀ {fuel : Nat} {sc : CiScanCtx} {pending : List (Bucket KeyRef SIId)},
      PlanOk idx.spec.types sc.plan → ScanAt idx bs sc pending → rounds bs sc pending < fuel →
        ∃ sc' pending', scanLoop idx fuel sc = .ok (sc', (toReturn idx bs sc pending).head?) ∧
          sc'.plan = sc.plan ∧ ScanAt idx bs sc' pending' ∧
          toReturn idx bs sc' pending' = (toReturn idx bs sc pending).tail := by
  intro fuel
  -- A round that returns nothing leaves what is to be returned as it is, and fewer rounds.
  induction fuel with
  | zero =>
      intro sc pending _ _ hfuel
      omega
  | succ fuel ih =>
      intro sc pending hplan hat hfuel
      by_cases hlt : sc.currentScanRange < sc.plan.ranges.length
      · obtain ⟨r, hr⟩ : ∃ r, sc.currentRange = some r := ⟨_, List.getElem?_eq_getElem hlt⟩
        obtain ⟨it, hscit, _, _, hit⟩ : ∃ it, sc.it = some it ∧ it.rangeMax = some r.max ∧
            it.maxExclusive = r.maxExclusive ∧ IterAt bs (aboveRange idx r) it pending := by
          simpa only [ScanAt, hr] using hat
        cases hcurrent : it.current with
        | none =>
            -- This range is over: the next one is entered.
            obtain rfl : pending = [] := by
              cases hit with
              | done => rfl
              | «at» _ _ _ _ current => simp [hcurrent] at current
            obtain ⟨sc₁, pending₁, hstart, hplan₁, hat₁, hreturn, hfewer⟩ :=
              enterRange_spec h hplan hlt
            obtain ⟨sc', pending', hrun, hplan', hat', hrest⟩ :=
              ih (by rwa [hplan₁]) hat₁ (by omega)
            rw [hreturn] at hrun hrest
            rw [hscit] at hstart
            refine ⟨sc', pending', ?_, hplan'.trans hplan₁, hat', hrest⟩
            simp [scanLoop, hlt, hscit, hcurrent, hstart, hrun]
        | some x =>
            obtain ⟨it', v, hpass, hnext, hat₁, hreturn, hone⟩ :=
              takeValue_spec h hplan hlt hat hscit hcurrent
            cases hp : passes idx sc.plan x with
            | true =>
                rw [hp] at hpass
                refine ⟨{ sc with it := some it' }, advance pending, ?_, rfl, hat₁, ?_⟩
                · rw [hreturn]
                  simp [scanLoop, hlt, hscit, hcurrent, hpass, hnext, hp]
                · simp [hreturn, hp]
            | false =>
                -- The node does not pass: the loop goes on with the value taken.
                rw [hp] at hpass
                have hsame : toReturn idx bs sc pending =
                    toReturn idx bs { sc with it := some it' } (advance pending) := by
                  simp [hreturn, hp]
                have hplan₁ : PlanOk idx.spec.types ({ sc with it := some it' } : CiScanCtx).plan :=
                  hplan
                obtain ⟨sc', pending', hrun, hplan', hat', hrest⟩ := ih hplan₁ hat₁ (by omega)
                rw [← hsame] at hrun hrest
                refine ⟨sc', pending', ?_, hplan', hat', hrest⟩
                simp [scanLoop, hlt, hscit, hcurrent, hpass, hnext, hrun]
      · -- All ranges have been scanned.
        have hr : sc.currentRange = none := List.getElem?_eq_none_iff.2 (Nat.not_lt.1 hlt)
        obtain rfl : pending = [] := by simpa [ScanAt, hr] using hat
        have hnil : toReturn idx bs sc [] = [] := by
          rw [toReturn, List.drop_eq_nil_iff.2 (by omega)]
          rfl
        refine ⟨sc, [], ?_, rfl, hat, by rw [hnil]; rfl⟩
        rw [hnil]
        simp [scanLoop, hlt]

/-- The values of the list are among those of all nodes. -/
theorem length_allVals_le (h : Rep idx.sl bs) :
    (Bucket.allVals bs).length ≤ idx.sl.nodes.numValues := by
  have hvals : (Bucket.allVals bs).length = ((bs.map Bucket.tag).map fun x =>
      ((idx.sl.nodes.cell x).map fun n => n.vals.length).getD 0).sum := by
    rw [Bucket.allVals, List.length_flatMap, List.map_map]
    congr 1
    refine List.map_congr_left fun b hb => ?_
    obtain ⟨n, hn, hnvals⟩ := Nodes.cell_of_valsAt? (h.vals b hb)
    simp [hn, hnvals]
  have hsub : (bs.map Bucket.tag).Subperm (List.range idx.sl.nodes.next) := by
    refine List.Nodup.subperm h.nodup_tags fun x hx => ?_
    exact List.mem_range.2 (h.linked.lt_next (List.mem_cons_of_mem _ hx))
  obtain ⟨xs, hperm, hsublist⟩ := hsub
  rw [hvals, Nodes.numValues, ← (hperm.map _).sum_eq]
  exact (hsublist.map _).sum_le_sum fun _ _ => Nat.zero_le _

theorem length_pending_le {above : KeyRef → Bool} {it : SkiplistIterator SIMultiKey}
    (hit : IterAt bs above it pending) :
    (Bucket.allVals pending).length ≤ (Bucket.allVals bs).length := by
  cases hit with
  | done current => exact Nat.zero_le _
  | «at» as b cs split current offset _ =>
      subst split
      have htake : (Bucket.allVals (cs.takeWhile fun d => !above d.key)).length ≤
          (Bucket.allVals cs).length :=
        ((List.takeWhile_sublist _).flatMap Bucket.vals).length_le
      simp only [Bucket.allVals_append, Bucket.allVals_cons, List.length_append, List.length_drop]
      omega

/-- `scan_next` takes the first id that is still to come. -/
theorem scanNext_spec (h : ListInv idx bs) (hplan : PlanOk idx.spec.types sc.plan)
    (hat : ScanAt idx bs sc pending) :
    ∃ sc' pending', scanNext idx sc = .ok (sc', (toReturn idx bs sc pending).head?) ∧
      sc'.plan = sc.plan ∧ ScanAt idx bs sc' pending' ∧
      toReturn idx bs sc' pending' = (toReturn idx bs sc pending).tail := by
  refine scanLoop_spec h hplan hat ?_
  have hpending : (Bucket.allVals pending).length ≤ (Bucket.allVals bs).length := by
    cases hr : sc.currentRange with
    | none =>
        obtain rfl : pending = [] := by simpa [ScanAt, hr] using hat
        exact Nat.zero_le _
    | some r =>
        simp only [ScanAt, hr] at hat
        obtain ⟨it, _, _, _, hit⟩ := hat
        exact length_pending_le hit
  have hall := length_allVals_le h.rep
  have hranges : (sc.plan.ranges.length - sc.currentScanRange) *
      ((Bucket.allVals bs).length + 1) ≤
        sc.plan.ranges.length * (idx.sl.nodes.numValues + 1) :=
    Nat.mul_le_mul (Nat.sub_le _ _) (by omega)
  rw [rounds, Nat.succ_mul]
  omega

/-- Draining the cursor returns everything that is still to come. -/
theorem drains_toReturn (h : ListInv idx bs) {ids : List SIId} :
    ∀ {sc : CiScanCtx} {pending : List (Bucket KeyRef SIId)}, PlanOk idx.spec.types sc.plan →
      ScanAt idx bs sc pending → toReturn idx bs sc pending = ids → Drains idx sc ids := by
  induction ids with
  | nil =>
      intro sc pending hplan hat hids
      obtain ⟨sc', _, hnext, _⟩ := scanNext_spec h hplan hat
      rw [hids] at hnext
      exact .done hnext
  | cons id ids ih =>
      intro sc pending hplan hat hids
      obtain ⟨sc', pending', hnext, hplan', hat', hrest⟩ := scanNext_spec h hplan hat
      rw [hids] at hnext hrest
      exact .next hnext (ih (by rwa [hplan']) hat' hrest)

end Scan

/-- Draining a cursor has one result. -/
theorem Drains.unique {idx : CompoundIndex} {sc : CiScanCtx} {ids ids' : List SIId}
    (h : Drains idx sc ids) (h' : Drains idx sc ids') : ids = ids' := by
  induction h generalizing ids' with
  | done next =>
      cases h' with
      | done _ => rfl
      | next next' _ => simp [next] at next'
  | next next _ ih =>
      cases h' with
      | done next' => simp [next] at next'
      | next next' rest' =>
          rw [next, Except.ok.injEq, Prod.mk.injEq, Option.some.injEq] at next'
          obtain ⟨rfl, rfl⟩ := next'
          rw [ih rest']

/-! ## Finding -/

theorem PlanOf.planOk {types : List SIType} {n : SIQueryNode} {plan : SIQueryPlan}
    (h : PlanOf types n plan) : PlanOk types plan :=
  ⟨h.bounds, h.filterOk⟩

theorem scanKeys_zero {props : Nat} {n n' : SIQueryNode} {keys : List (List SIPlanRangeKey)}
    (h : scanKeys 0 props n [] = .ok (n', keys)) : keys = [] := by
  cases props with
  | zero =>
      obtain ⟨_, rfl⟩ : n = n' ∧ [] = keys := by simpa [scanKeys] using h
      rfl
  | succ props =>
      simp only [scanKeys] at h
      split at h
      · obtain ⟨_, rfl⟩ := Prod.mk.inj (Except.ok.inj h)
        rfl
      · simp at h

/-- A query that has a plan has predicates. -/
theorem numPredicates_of_plan {q q' : SIQuery} {spec : SISpec} {plan : SIQueryPlan}
    (h : siBuildQueryPlan q spec = .ok (q', some plan)) : q.numPredicates ≠ 0 := by
  intro hzero
  obtain ⟨⟨n, keys⟩, hscan, h⟩ := bind_eq_ok.1 h
  rw [hzero] at hscan
  obtain rfl := scanKeys_zero hscan
  simp at h

/-- A cursor on a planned query starts with the nodes of the first range. -/
theorem compoundIndexFind_start {idx : CompoundIndex} {bs : List (Bucket KeyRef SIId)}
    (h : ListInv idx bs) {q q' : SIQuery} {plan : SIQueryPlan}
    (hq : siBuildQueryPlan q idx.spec = .ok (q', some plan)) (hplan : PlanOk idx.spec.types plan) :
    ∃ sc sc₀, compoundIndexFind idx q = .ok (q', { error := siCursorOk, ctx := some sc }) ∧
      sc₀.plan = plan ∧ sc₀.currentScanRange = 0 ∧ sc.plan = sc₀.plan ∧
      sc.currentScanRange = sc₀.currentScanRange ∧ ScanAt idx bs sc (startBuckets idx bs sc₀) := by
  have hzero := numPredicates_of_plan hq
  obtain ⟨sc₀, hsc₀⟩ : ∃ sc₀ : CiScanCtx,
      sc₀ = { plan := plan, currentScanRange := 0, it := none } := ⟨_, rfl⟩
  have hplan₀ : sc₀.plan = plan := by rw [hsc₀]
  obtain ⟨sc, hstart, hplan', hcur, hat⟩ := startRange_spec h (hplan₀ ▸ hplan)
  refine ⟨sc, sc₀, ?_, hplan₀, by rw [hsc₀], hplan', hcur, hat⟩
  simp [compoundIndexFind, hzero, hq, ← hsc₀, hstart]

/-- A cursor on a planned query starts with everything that the plan selects. -/
theorem compoundIndexFind_spec {idx : CompoundIndex} {bs : List (Bucket KeyRef SIId)}
    (h : ListInv idx bs) {q q' : SIQuery} {plan : SIQueryPlan}
    (hq : siBuildQueryPlan q idx.spec = .ok (q', some plan)) (hplan : PlanOk idx.spec.types plan) :
    ∃ sc pending, compoundIndexFind idx q = .ok (q', { error := siCursorOk, ctx := some sc }) ∧
      sc.plan = plan ∧ ScanAt idx bs sc pending ∧
      toReturn idx bs sc pending = planIds idx plan bs := by
  obtain ⟨sc, sc₀, hfind, hplan₀, hcur₀, hplan', hcur, hat⟩ := compoundIndexFind_start h hq hplan
  refine ⟨sc, _, hfind, hplan'.trans hplan₀, hat, ?_⟩
  rw [toReturn_start hplan' hcur, hcur₀, hplan₀]
  rfl

end Secondary
