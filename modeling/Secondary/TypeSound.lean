import Secondary.TypeSafe

/-!
# TypeSound — when a query compares values within their columns, whatever the index

`TypeSound` says of a query that it is type safe on every index of the spec.  An index of a single
tuple shows what the query needs for it: its cursor enters every range, and if the tuple is in the
range, the filter is run on the tuple.  So the constants of a query that is type sound fit as far
as they are compared.
-/

namespace Secondary

open Lib

/-! ## Skiplists of one node -/

section SingleNode

variable {K V O : Type}

/-- What a skiplist of one node looks like. -/
structure SingleNode (sl : Skiplist K V) (obj : K) (val : V) : Prop where
  level : sl.level = 1
  next : sl.nodes.next = 2
  first : sl.nodes.levelAt sl.header 0 = .ok { forward := some 1, span := 1 }
  last : sl.nodes.levelAt 1 0 = .ok { forward := none, span := 0 }
  object : sl.nodes.objAt 1 = .ok obj
  value : ∃ n, sl.nodes.node 1 = .ok n ∧ n.vals = [val]

theorem exists_singleNode (obj : K) (val : V) :
    ∃ sl : Skiplist K V, Rep sl [{ tag := 1, key := obj, vals := [val] }] ∧
      SingleNode sl obj val := by
  have hpos : Bucket.Position (fun _ : K => (0 : Int)) ([] : List (Bucket K V)) :=
    .absent [] [] rfl (by simp) (by simp)
  have hcompares : Compares (fun _ _ : K => .ok 0) obj (fun _ => 0) ([] : List (Bucket K V)) :=
    fun _ hb => by cases hb
  obtain ⟨sl, hrun, hrep⟩ := rep_create.insert hcompares hpos (fun _ _ => 0) val ⟨1, by decide⟩
  refine ⟨sl, hrep, ?_⟩
  obtain rfl := Except.ok.inj hrun
  exact ⟨rfl, rfl, rfl, rfl, rfl, _, rfl, rfl⟩

variable {sl : Skiplist K V} {obj : K} {val : V}

/-- The iterator of a range over it. -/
def rangeIterator (min max : O) (minExclusive maxExclusive : Bool) (n : Option Nat) :
    SkiplistIterator O where
  current := n
  currentValOffset := 0
  rangeMin := some min
  minExclusive := minExclusive
  rangeMax := some max
  maxExclusive := maxExclusive

/-- The node is compared with the lower end, and, if it is not below it, with the upper one. -/
theorem SingleNode.iterateRange (h : SingleNode sl obj val) (compare : K → O → Exec Int)
    (min max : O) (minExclusive maxExclusive : Bool) :
    skiplistIterateRange compare sl min (some max) minExclusive maxExclusive =
      belowBound compare min minExclusive obj >>= fun below =>
        if below then
          .ok (rangeIterator min max minExclusive maxExclusive none)
        else
          aboveBound compare max maxExclusive obj >>= fun above =>
            .ok (rangeIterator min max minExclusive maxExclusive (if above then none else some 1)) := by
  have hfind : skiplistFindAtLeast compare sl min minExclusive =
      belowBound compare min minExclusive obj >>= fun below =>
        .ok (if below then none else some 1) := by
    cases hb : belowBound compare min minExclusive obj with
    | error e =>
        simp [skiplistFindAtLeast, skiplistSearch, descend, walkLevel, h.level, h.next, h.first,
          h.object, hb]
    | ok b =>
        cases b <;> simp [skiplistFindAtLeast, skiplistSearch, descend, walkLevel, h.level, h.next,
          h.first, h.last, h.object, hb]
  rw [skiplistIterateRange, hfind]
  cases belowBound compare min minExclusive obj with
  | error e => rfl
  | ok below =>
      cases below with
      | true => rfl
      | false =>
          cases ha : aboveBound compare max maxExclusive obj with
          | error e => simp [clipNode, h.object, ha]
          | ok above => cases above <;> simp [clipNode, h.object, ha, rangeIterator]

/-- After its value there is nothing more to come. -/
theorem SingleNode.iteratorNext (h : SingleNode sl obj val) (compare : K → O → Exec Int)
    {it : SkiplistIterator O} (hcurrent : it.current = some 1) (hoffset : it.currentValOffset = 0) :
    skiplistIteratorNext compare sl it = .ok ({ it with current := none }, some val) := by
  obtain ⟨n, hn, hvals⟩ := h.value
  cases it with
  | mk current offset rangeMin minExclusive rangeMax maxExclusive =>
      obtain rfl : current = some 1 := hcurrent
      obtain rfl : offset = 0 := hoffset
      simp [skiplistIteratorNext, hn, hvals, h.last, clipNode]

end SingleNode

/-! ## Faults of checked comparators -/

/-- If the computation fails, it is at a value of another type. -/
def FaultsOnlyMember {α : Type} (x : Exec α) : Prop :=
  ∀ e, e ≠ Fault.member → Avoids x e

theorem FaultsOnlyMember.returns {α : Type} {x : Exec α} (h : FaultsOnlyMember x)
    (havoids : Avoids x Fault.member) : ∃ a, x = .ok a := by
  cases x with
  | ok a => exact ⟨a, rfl⟩
  | error e =>
      by_cases he : e = Fault.member
      · exact absurd (congrArg _ he) havoids
      · exact absurd rfl (h e he)

theorem Outcome.faultsOnlyMember {x : Exec Bool} {bad P : Prop} (h : Outcome x bad P) :
    FaultsOnlyMember x := by
  intro e he
  by_cases hbad : bad
  · rw [h.faults hbad]
    exact avoids_error fun heq => he heq.symm
  · obtain ⟨b, hb, _⟩ := h.returns hbad
    rw [hb]
    exact avoids_ok b

theorem siCmpMultiKey_faultsOnlyMember {types : List SIType} {fs : List SIKeyCmpFunc}
    (hfs : CmpFuncsOf types fs) :
    ∀ {k : SIMultiKey}, Stored types k → ∀ bound : SIMultiKey,
      FaultsOnlyMember (siCmpMultiKey (checkedFuncs types fs) k bound) := by
  induction hfs with
  | nil =>
      intro k hk bound e _
      cases hk
      cases bound <;> exact avoids_ok _
  | @cons t f types fs hf hfs ih =>
      intro k hk bound e he
      obtain _ | ⟨hv, hk⟩ := hk
      cases bound with
      | nil => exact avoids_ok _
      | cons w ws =>
          have hhead : ∀ {v}, StoredValue t v → Avoids (checkedCmp t f v w) e := by
            intro v hv
            by_cases hw : w.Comparable t
            · obtain ⟨c, _, hc⟩ := checkedCmp_ok hf hv.comparable hw
              rw [hc]
              exact avoids_ok c
            · rw [checkedCmp_member hw]
              exact avoids_error fun heq => he heq.symm
          refine (hhead hv).bind fun c _ => ?_
          split_ifs
          · exact avoids_ok _
          · exact ih hk ws e he

/-! ## An index of one tuple -/

/-- Comparing the tuple with the ends of the scan range gets to a value of another type. -/
def ComparesWrong (types : List SIType) (fs : List SIKeyCmpFunc) (k : SIMultiKey)
    (r : SIPlanRange) : Prop :=
  siCmpMultiKey (checkedFuncs types fs) k r.min = .error .member ∨
    (∃ c, siCmpMultiKey (checkedFuncs types fs) k r.min = .ok c ∧ 0 < c) ∧
      siCmpMultiKey (checkedFuncs types fs) k r.max = .error .member

/-- The index has the tuple `k` and no other, in one node. -/
structure SoleTuple (idx : CompoundIndex) (r : KeyRef) (k : SIMultiKey) : Prop where
  cmpFuncs : CmpFuncsOf idx.spec.types idx.cmpFuncs
  rep : ∃ id, Rep idx.sl [{ tag := 1, key := r, vals := [id] }] ∧ SingleNode idx.sl r id
  key : idx.keys.cell r = some k
  stored : Stored idx.spec.types k

theorem exists_soleTuple {spec : SISpec} {fs : List SIKeyCmpFunc} {k : SIMultiKey}
    (hfs : CmpFuncsOf spec.types fs) (hk : Stored spec.types k) :
    ∃ idx r, idx.spec = spec ∧ idx.cmpFuncs = fs ∧ SoleTuple idx r k := by
  obtain ⟨sl, hrep, hnode⟩ :=
    exists_singleNode (Store.empty : Store SIMultiKey).next idA
  exact
    ⟨{ spec := spec
       cmpFuncs := fs
       numFuncs := UInt8.ofNat spec.numProps
       sl := sl
       length := 1
       ri := (∅ : Finmap fun _ : SIId => KeyRef).insert idA (Store.empty : Store SIMultiKey).next
       keys := Store.empty.alloc k },
      _, rfl, rfl, hfs, ⟨_, hrep, hnode⟩, Store.cell_alloc_self _ _, hk⟩

namespace SoleTuple

variable {idx : CompoundIndex} {r : KeyRef} {k : SIMultiKey}

theorem typedIndex (h : SoleTuple idx r k) : ∃ b, TypedIndex idx [b] := by
  obtain ⟨id, hrep, _⟩ := h.rep
  refine ⟨_, h.cmpFuncs, hrep, ?_, ?_⟩
  · simp
  · intro b hb
    obtain rfl := List.mem_singleton.1 hb
    exact ⟨k, h.key, h.stored⟩

theorem compareBound (h : SoleTuple idx r k) (bound : SIMultiKey) :
    idx.checked.compareBound r bound =
      siCmpMultiKey (checkedFuncs idx.spec.types idx.cmpFuncs) k bound := by
  rw [CompoundIndex.compareBound, Secondary.compareBound,
    show readKey idx.checked.keys r = .ok k from readKey_of_cell h.key]
  rfl

theorem iterateRange_faultsOnlyMember (h : SoleTuple idx r k) (cr : SIPlanRange) :
    FaultsOnlyMember (idx.checked.iterateRange cr) := by
  intro e he
  obtain ⟨id, _, hnode⟩ := h.rep
  have hcompare : ∀ bound, Avoids (idx.checked.compareBound r bound) e := by
    intro bound
    rw [h.compareBound]
    exact siCmpMultiKey_faultsOnlyMember h.cmpFuncs h.stored bound e he
  have hrun : idx.checked.iterateRange cr = _ :=
    hnode.iterateRange idx.checked.compareBound cr.min cr.max cr.minExclusive cr.maxExclusive
  rw [hrun]
  refine ((hcompare cr.min).bind fun _ _ => avoids_ok _).bind fun below _ => ?_
  cases below with
  | true => exact avoids_ok _
  | false =>
      exact ((hcompare cr.max).bind fun _ _ => avoids_ok _).bind fun _ _ => avoids_ok _

/-- The iterator of a range stands at the first value of the node, or is at its end. -/
theorem iterateRange_eq_ok (h : SoleTuple idx r k) {cr : SIPlanRange}
    {it : SkiplistIterator SIMultiKey} (hit : idx.checked.iterateRange cr = .ok it) :
    it.currentValOffset = 0 ∧ (it.current = none ∨ it.current = some 1) := by
  obtain ⟨id, _, hnode⟩ := h.rep
  have hrun : idx.checked.iterateRange cr = _ :=
    hnode.iterateRange idx.checked.compareBound cr.min cr.max cr.minExclusive cr.maxExclusive
  rw [hrun] at hit
  obtain ⟨below, _, hit⟩ := bind_eq_ok.1 hit
  cases below with
  | true =>
      obtain rfl := Except.ok.inj hit
      exact ⟨rfl, Or.inl rfl⟩
  | false =>
      obtain ⟨above, _, hit⟩ := bind_eq_ok.1 hit
      obtain rfl := Except.ok.inj hit
      cases above with
      | true => exact ⟨rfl, Or.inl rfl⟩
      | false => exact ⟨rfl, Or.inr rfl⟩

/-- A range with an end that the tuple cannot be compared with is not scanned. -/
theorem iterateRange_ne_ok (h : SoleTuple idx r k) {cr : SIPlanRange}
    (hwrong : ComparesWrong idx.spec.types idx.cmpFuncs k cr) (it : SkiplistIterator SIMultiKey) :
    idx.checked.iterateRange cr ≠ .ok it := by
  obtain ⟨id, _, hnode⟩ := h.rep
  have hrun : idx.checked.iterateRange cr = _ :=
    hnode.iterateRange idx.checked.compareBound cr.min cr.max cr.minExclusive cr.maxExclusive
  rw [hrun, belowBound, aboveBound, h.compareBound, h.compareBound]
  rcases hwrong with hmin | ⟨⟨c, hc, hpos⟩, hmax⟩
  · simp [hmin]
  · have hnot : ¬(c < 0 ∨ c = 0 ∧ cr.minExclusive = true) := by omega
    simp [hc, hnot, hmax]

/-- A range that the tuple is in is scanned from its node on. -/
theorem iterateRange_of_inRange (h : SoleTuple idx r k) {cr : SIPlanRange}
    {it : SkiplistIterator SIMultiKey}
    (hfit : Fitting idx.spec.types cr.min ∧ Fitting idx.spec.types cr.max)
    (hin : NotBelow idx.cmpFuncs cr k ∧ NotAbove idx.cmpFuncs cr k)
    (hit : idx.checked.iterateRange cr = .ok it) :
    it.currentValOffset = 0 ∧ it.current = some 1 := by
  obtain ⟨id, _, hnode⟩ := h.rep
  obtain ⟨⟨c, hc, hlow⟩, d, hd, hhigh⟩ := hin
  have hmin : siCmpMultiKey (checkedFuncs idx.spec.types idx.cmpFuncs) k cr.min = .ok c := by
    obtain ⟨c', hc', hchecked⟩ := siCmpMultiKey_checked h.cmpFuncs h.stored hfit.1
    rwa [← hc, hc']
  have hmax : siCmpMultiKey (checkedFuncs idx.spec.types idx.cmpFuncs) k cr.max = .ok d := by
    obtain ⟨d', hd', hchecked⟩ := siCmpMultiKey_checked h.cmpFuncs h.stored hfit.2
    rwa [← hd, hd']
  have hrun : idx.checked.iterateRange cr = _ :=
    hnode.iterateRange idx.checked.compareBound cr.min cr.max cr.minExclusive cr.maxExclusive
  have hnotBelow : ¬(c < 0 ∨ c = 0 ∧ cr.minExclusive = true) := by
    cases hexcl : cr.minExclusive <;> simp [hexcl] at hlow ⊢ <;> omega
  have hnotAbove : ¬(0 < d ∨ d = 0 ∧ cr.maxExclusive = true) := by
    cases hexcl : cr.maxExclusive <;> simp [hexcl] at hhigh ⊢ <;> omega
  rw [hrun, belowBound, aboveBound, h.compareBound, h.compareBound, hmin, hmax] at hit
  simp only [ok_bind, hnotBelow, hnotAbove, decide_false, Bool.false_eq_true, if_false] at hit
  obtain rfl := Except.ok.inj hit
  exact ⟨rfl, rfl⟩

/-- Filtering the tuple. -/
theorem passesFilter_eq (h : SoleTuple idx r k) (plan : SIQueryPlan) :
    passesFilter idx.checked plan 1 =
      match plan.filterTree with
      | none => .ok true
      | some t => evalKey k (checkedFuncs idx.spec.types idx.cmpFuncs) t := by
  obtain ⟨id, _, hnode⟩ := h.rep
  have hobj : idx.checked.sl.nodes.objAt 1 = .ok r := hnode.object
  have hkey : readKey idx.checked.keys r = .ok k := readKey_of_cell h.key
  rw [passesFilter, hobj, ok_bind]
  cases plan.filterTree with
  | none => rfl
  | some t => simp only [hkey, ok_bind]; rfl

end SoleTuple

/-! ## Entering every range -/

/-- The rest of a call of `Next` faults at no value of another type, and leaves a cursor of the
query. -/
def RunsOn (idx : CompoundIndex) (q : SIQuery) (fuel : Nat) (sc : CiScanCtx) : Prop :=
  Ends (scanLoop idx.checked fuel sc) Fault.member fun p => CursorOf idx.checked q p.1

/-- A cursor of the query enters the range `i`, with rounds left for all ranges from there on. -/
def EntersRange (idx : CompoundIndex) (q : SIQuery) (plan : SIQueryPlan) (i : Nat) : Prop :=
  ∃ fuel it cr, 2 * (plan.ranges.length - i) ≤ fuel ∧ plan.ranges[i]? = some cr ∧
    idx.checked.iterateRange cr = .ok it ∧
    RunsOn idx q fuel { plan := plan, currentScanRange := i, it := some it }

section Enters

variable {idx : CompoundIndex} {q : SIQuery} {plan : SIQueryPlan} {r : KeyRef} {k : SIMultiKey}
  {i : Nat}

theorem TypeSafe.runsOn (hsafe : TypeSafe idx q) (hsole : SoleTuple idx r k) {sc : CiScanCtx}
    (h : CursorOf idx.checked q sc) :
    ∃ fuel, 2 * sc.plan.ranges.length ≤ fuel ∧ RunsOn idx q fuel sc := by
  refine ⟨_, ?_, hsafe.next h, fun p hp => .next h hp⟩
  obtain ⟨id, hrep, _⟩ := hsole.rep
  have hvals : 1 ≤ idx.sl.nodes.numValues := by simpa using length_allVals_le hrep
  show 2 * _ ≤ (sc.plan.ranges.length + 1) * (idx.sl.nodes.numValues + 1) + 1
  have hmul : (sc.plan.ranges.length + 1) * 2 ≤
      (sc.plan.ranges.length + 1) * (idx.sl.nodes.numValues + 1) :=
    Nat.mul_le_mul (Nat.le_refl _) (by omega)
  omega

/-- At the end of a range the next one is entered. -/
theorem RunsOn.nextRange (hsole : SoleTuple idx r k) {fuel : Nat}
    {it : SkiplistIterator SIMultiKey}
    (h : RunsOn idx q fuel { plan := plan, currentScanRange := i, it := some it })
    (hcurrent : it.current = none) (hfuel : 2 * (plan.ranges.length - i) ≤ fuel + 1)
    (hi : i + 1 < plan.ranges.length) : EntersRange idx q plan (i + 1) := by
  obtain ⟨fuel, rfl⟩ : ∃ n, fuel = n + 1 := ⟨fuel - 1, by omega⟩
  obtain ⟨cr, hcr⟩ : ∃ cr, plan.ranges[i + 1]? = some cr := ⟨_, List.getElem?_eq_getElem hi⟩
  have hlt : i < plan.ranges.length := by omega
  have hstart : CiScanCtx.startRange idx.checked
      { plan := plan, currentScanRange := i + 1, it := some it } =
        idx.checked.iterateRange cr >>= fun it' =>
          .ok { plan := plan, currentScanRange := i + 1, it := some it' } := by
    simp only [CiScanCtx.startRange, CiScanCtx.currentRange, hcr]
  rw [RunsOn, scanLoop, if_pos hlt] at h
  simp only [orFault_some, ok_bind, hcurrent, hstart] at h
  obtain ⟨it', hit'⟩ :=
    (hsole.iterateRange_faultsOnlyMember cr).returns h.1.of_bind.of_bind
  rw [hit', ok_bind, ok_bind] at h
  exact ⟨fuel, it', cr, by omega, hcr, hit', h⟩

/-- At a node the filter is run, and then the range is at its end. -/
theorem EntersRange.passesFilter (hsafe : TypeSafe idx q) (hsole : SoleTuple idx r k)
    {fuel : Nat} {it : SkiplistIterator SIMultiKey}
    (hfilter : ∀ t ∈ plan.filterTree,
      FaultsOnlyMember (evalKey k (checkedFuncs idx.spec.types idx.cmpFuncs) t))
    (h : RunsOn idx q fuel { plan := plan, currentScanRange := i, it := some it })
    (hcurrent : it.current = some 1) (hoffset : it.currentValOffset = 0)
    (hfuel : 2 * (plan.ranges.length - i) ≤ fuel) (hi : i < plan.ranges.length) :
    Avoids (Secondary.passesFilter idx.checked plan 1) Fault.member ∧
      ∃ fuel it', 2 * (plan.ranges.length - i) ≤ fuel + 1 ∧ it'.current = none ∧
        RunsOn idx q fuel { plan := plan, currentScanRange := i, it := some it' } := by
  obtain ⟨fuel, rfl⟩ : ∃ n, fuel = n + 1 := ⟨fuel - 1, by omega⟩
  obtain ⟨id, _, hnode⟩ := hsole.rep
  have hnext : skiplistIteratorNext idx.checked.compareBound idx.checked.sl it =
      .ok ({ it with current := none }, some id) :=
    hnode.iteratorNext idx.checked.compareBound hcurrent hoffset
  rw [RunsOn, scanLoop, if_pos hi] at h
  simp only [orFault_some, ok_bind, hcurrent, hnext] at h
  have havoids := h.1.of_bind
  obtain ⟨b, hb⟩ : ∃ b, Secondary.passesFilter idx.checked plan 1 = .ok b := by
    refine FaultsOnlyMember.returns ?_ havoids
    rw [hsole.passesFilter_eq]
    cases htree : plan.filterTree with
    | none => exact fun e _ => avoids_ok _
    | some t => exact hfilter t htree
  refine ⟨havoids, ?_⟩
  rw [hb, ok_bind] at h
  cases b with
  | true =>
      -- The value is returned; the next call goes on from here.
      obtain ⟨fuel', hfuel', hruns⟩ := hsafe.runsOn hsole (h.2 _ rfl)
      exact ⟨fuel', _, by simp only at hfuel'; omega, rfl, hruns⟩
  | false => exact ⟨fuel, _, by omega, rfl, h⟩

/-- Every range of a plan is entered. -/
theorem TypeSafe.entersRange (hsafe : TypeSafe idx q) (hsole : SoleTuple idx r k) {q' : SIQuery}
    (hplan : siBuildQueryPlan q idx.spec = .ok (q', some plan))
    (hfilter : ∀ t ∈ plan.filterTree,
      FaultsOnlyMember (evalKey k (checkedFuncs idx.spec.types idx.cmpFuncs) t)) :
    ∀ i, i < plan.ranges.length → EntersRange idx q plan i
  | 0, hi => by
      obtain ⟨cr, hcr⟩ : ∃ cr, plan.ranges[0]? = some cr := ⟨_, List.getElem?_eq_getElem hi⟩
      have hfind : compoundIndexFind idx.checked q = idx.checked.iterateRange cr >>= fun it =>
          .ok (q', { error := siCursorOk,
                     ctx := some { plan := plan, currentScanRange := 0, it := some it } }) := by
        have hplan' : siBuildQueryPlan q idx.checked.spec = .ok (q', some plan) := hplan
        simp only [compoundIndexFind, numPredicates_of_plan hplan, if_false, hplan', ok_bind,
          CiScanCtx.startRange, CiScanCtx.currentRange, hcr]
        cases idx.checked.iterateRange cr <;> rfl
      have havoids := hsafe.find
      rw [hfind] at havoids
      obtain ⟨it, hit⟩ := (hsole.iterateRange_faultsOnlyMember cr).returns havoids.of_bind
      rw [hit, ok_bind] at hfind
      obtain ⟨fuel, hfuel, hruns⟩ := hsafe.runsOn hsole (.find hfind)
      exact ⟨fuel, it, cr, by simpa using hfuel, hcr, hit, hruns⟩
  | i + 1, hi => by
      obtain ⟨fuel, it, cr, hfuel, _, hit, hruns⟩ :=
        hsafe.entersRange hsole hplan hfilter i (by omega)
      obtain ⟨hoffset, hcurrent | hcurrent⟩ := hsole.iterateRange_eq_ok hit
      · exact hruns.nextRange hsole hcurrent (by omega) hi
      · obtain ⟨_, fuel', it', hfuel', hcurrent', hruns'⟩ :=
          EntersRange.passesFilter hsafe hsole hfilter hruns hcurrent hoffset hfuel (by omega)
        exact hruns'.nextRange hsole hcurrent' hfuel' hi

end Enters

/-! ## Tuples that show a wrong constant -/

section Wrong

variable {types : List SIType} {fs : List SIKeyCmpFunc}

/-- A predicate with a constant of another type has a range with one, behind a lower end that is
not NULL. -/
theorem exists_wrong_range {t : SIType} {p : SIPredicate} (hp : p.t.Parsed)
    (hwrong : ∃ w ∈ p.t.constants, ¬w.Comparable t) :
    ∃ rk ∈ rangesOf p, ¬rk.min.Comparable t ∨
      (rk.min.Comparable t ∧ rk.min.isNull = false ∧ ¬rk.max.Comparable t) := by
  obtain ⟨w, hw, hno⟩ := hwrong
  cases ht : p.t with
  | eq w' =>
      rw [ht] at hw
      obtain rfl : w = w' := List.mem_singleton.1 hw
      exact ⟨equalTo w, by simp [rangesOf, predicateToRanges, ht], Or.inl hno⟩
  | ne w' =>
      rw [ht] at hp
      exact hp.elim
  | inList ws =>
      rw [ht] at hw
      exact ⟨equalTo w, by simpa [rangesOf, predicateToRanges, ht] using ⟨w, hw, rfl⟩, Or.inl hno⟩
  | isNull w' =>
      rw [ht] at hp hw
      obtain rfl : w = w' := List.mem_singleton.1 hw
      exact absurd (Or.inl hp) hno
  | rng min max minExclusive maxExclusive =>
      rw [ht] at hp hw
      refine ⟨_, by simp [rangesOf, predicateToRanges, ht]; rfl, ?_⟩
      by_cases hmin : min.Comparable t
      · rcases List.mem_cons.1 hw with rfl | hw
        · exact absurd hmin hno
        · obtain rfl := List.mem_singleton.1 hw
          exact Or.inr ⟨hmin, hp, hno⟩
      · exact Or.inl hmin

/-- A predicate whose constants fit and that is no range has a single value that can be stored. -/
theorem exists_stored_point {t : SIType} {p : SIPredicate} (hp : p.t.Parsed)
    (hrange : p.t.isRange = false) (hne : rangesOf p ≠ [])
    (hfit : ∀ w ∈ p.t.constants, w.Comparable t) :
    ∃ w, equalTo w ∈ rangesOf p ∧ StoredValue t w := by
  have hstored : ∀ {w : SIValue}, w.rank = 1 → w.Comparable t → StoredValue t w := by
    rintro w hw (rfl | rfl | rfl | htype)
    · cases hw
    · cases hw
    · cases hw
    · exact Or.inr htype
  cases ht : p.t with
  | eq w =>
      rw [ht] at hp hfit
      exact ⟨w, by simp [rangesOf, predicateToRanges, ht],
        hstored hp (hfit w (List.mem_singleton_self w))⟩
  | ne w =>
      rw [ht] at hp
      exact hp.elim
  | inList ws =>
      cases ws with
      | nil => simp [rangesOf, predicateToRanges, ht] at hne
      | cons w ws =>
          rw [ht] at hp hfit
          exact ⟨w, by simp [rangesOf, predicateToRanges, ht],
            hstored (hp w (by simp)) (hfit w (by simp [SIPredicateType.constants]))⟩
  | isNull w =>
      rw [ht] at hp
      exact ⟨w, by simp [rangesOf, predicateToRanges, ht], Or.inl hp⟩
  | rng min max minExclusive maxExclusive => simp [ht, SIPredicateType.isRange] at hrange

theorem stored_nulls (types : List SIType) : Stored types (types.map fun _ => .null) := by
  induction types with
  | nil => exact .nil
  | cons t types ih => exact .cons (Or.inl rfl) ih

/-- In front of the first predicate with a wrong constant the tuple has the constants of the
others; from there on it is NULL, which is behind every value. -/
theorem exists_wrong_tuple (hfs : CmpFuncsOf types fs) :
    ∀ {ps : List SIPredicate} {col : Nat}, OnColumns col ps → RangeLast ps →
      (∀ p ∈ ps, p.t.Parsed) → (∀ p ∈ ps, rangesOf p ≠ []) → col + ps.length ≤ types.length →
        (¬∀ p ∈ ps, p.OfColumn types) →
          ∃ ks k, List.Forall₂ (· ∈ ·) ks (ps.map rangesOf) ∧ Stored (types.drop col) k ∧
            ComparesWrong (types.drop col) (fs.drop col) k (siPlanRangeOf ks)
  | [], _, _, _, _, _, _, hbad => absurd (by simp) hbad
  | p :: ps, col, hcols, hlast, hparsed, hne, hlen, hbad => by
      -- The predicates are on the columns from `col` on, one after the other.
      have hlt : col + (ps.length + 1) ≤ types.length := hlen
      have hit : col < types.length := by omega
      have hif : col < fs.length := hfs.length_eq ▸ hit
      have hft : cmpFuncOf types[col] = .ok fs[col] := List.Forall₂.get hfs hit hif
      have hpos : 0 ≤ p.propId := by
        rw [hcols.1]
        exact Int.natCast_nonneg col
      have hnat : p.propId.toNat = col := by
        have := hcols.1
        omega
      have htype : types[p.propId.toNat]? = some types[col] := by simp [hnat, hit]
      rw [List.drop_eq_getElem_cons hit, List.drop_eq_getElem_cons hif]
      have hfuncs : checkedFuncs (types[col] :: types.drop (col + 1)) (fs[col] :: fs.drop (col + 1)) =
          checkedCmp types[col] fs[col] :: checkedFuncs (types.drop (col + 1)) (fs.drop (col + 1)) :=
        rfl
      by_cases hcol : p.OfColumn types
      · -- The tuple has a constant of this predicate.
        have hbad' : ¬∀ p ∈ ps, p.OfColumn types := fun h =>
          hbad (List.forall_mem_cons.2 ⟨hcol, h⟩)
        have hps : ps ≠ [] := by
          rintro rfl
          exact hbad' (by simp)
        obtain ⟨w, hw, hstored⟩ := exists_stored_point (hparsed p (by simp))
          (hlast.1.resolve_left hps) (hne p (by simp)) (hcol hpos _ htype)
        obtain ⟨ks, k, hks, hk, hwrong⟩ := exists_wrong_tuple hfs hcols.2 hlast.2
          (fun p hp => hparsed p (List.mem_cons_of_mem _ hp))
          (fun p hp => hne p (List.mem_cons_of_mem _ hp)) (by omega) hbad'
        obtain ⟨c, hc, hchecked⟩ := checkedCmp_ok hft hstored.comparable hstored.comparable
        obtain rfl : c = 0 := Except.ok.inj (hc.symm.trans (cmp_self hft hstored))
        refine ⟨equalTo w :: ks, w :: k, .cons hw hks, .cons hstored hk, ?_⟩
        simp only [ComparesWrong, siPlanRangeOf, hfuncs, List.map_cons, equalTo, siCmpMultiKey,
          hchecked, ok_bind, ne_eq, not_true_eq_false, if_false]
        exact hwrong
      · -- The constant that the column is compared with is wrong.
        have hconstant : ∃ w ∈ p.t.constants, ¬w.Comparable types[col] := by
          by_contra hno
          refine hcol fun _ t ht w hw => by_contra fun hw' => hno ⟨w, hw, ?_⟩
          obtain rfl := Option.some.inj (htype.symm.trans ht)
          exact hw'
        obtain ⟨rk, hrk, hwrong⟩ := exists_wrong_range (hparsed p (by simp)) hconstant
        obtain ⟨ks, hks⟩ : ∃ ks, List.Forall₂ (· ∈ ·) ks (ps.map rangesOf) :=
          exists_choice_iff.2 (List.forall_mem_map.2 fun p hp => hne p (List.mem_cons_of_mem _ hp))
        refine ⟨rk :: ks, _, .cons hrk hks,
          stored_nulls (types[col] :: types.drop (col + 1)), ?_⟩
        simp only [ComparesWrong, siPlanRangeOf, hfuncs, List.map_cons, siCmpMultiKey]
        rcases hwrong with hmin | ⟨hmin, hnull, hmax⟩
        · exact Or.inl (by rw [checkedCmp_member hmin, error_bind])
        · obtain ⟨c, hc, hchecked⟩ := checkedCmp_ok hft (v := .null) (Or.inl rfl) hmin
          obtain rfl : c = 1 := Except.ok.inj (hc.symm.trans (cmp_null hft hnull))
          refine Or.inr ⟨⟨1, by simp [hchecked], by decide⟩, ?_⟩
          rw [checkedCmp_member hmax, error_bind]

end Wrong

/-! ## Type soundness -/

/-- On every index of the spec whose nodes ascend, the query is type safe. -/
def TypeSound (spec : SISpec) (q : SIQuery) : Prop :=
  ∀ idx bs, idx.spec = spec → TypedIndex idx bs → AscendsFor idx q.root bs → TypeSafe idx q

section Sound

variable {spec : SISpec} {q : SIQuery} {fs : List SIKeyCmpFunc} {k : SIMultiKey}

/-- On the index of one tuple every range is entered, and it is compared with the tuple. -/
theorem TypeSound.entersRange (hsound : TypeSound spec q) (hfs : CmpFuncsOf spec.types fs)
    (hk : Stored spec.types k) (hparsed : Leaves (fun p => p.t.Parsed) q.root)
    (hu : Unmarked q.root) {q' : SIQuery} {plan : SIQueryPlan}
    (hplan : siBuildQueryPlan q spec = .ok (q', some plan)) {cr : SIPlanRange}
    (hcr : cr ∈ plan.ranges) :
    ∃ idx r i, idx.spec = spec ∧ idx.cmpFuncs = fs ∧ SoleTuple idx r k ∧ TypeSafe idx q ∧
      i < plan.ranges.length ∧ plan.ranges[i]? = some cr ∧ EntersRange idx q plan i := by
  have hne : Leaves (fun p => p.t.isNotEquals = false) q.root :=
    hparsed.mono fun p hp => hp.isNotEquals
  obtain ⟨idx, r, rfl, rfl, hsole⟩ := exists_soleTuple hfs hk
  obtain ⟨b, htyped⟩ := hsole.typedIndex
  have hsafe := hsound idx [b] rfl htyped fun r _ => List.pairwise_singleton _ _
  obtain ⟨i, hi⟩ := List.mem_iff_getElem?.1 hcr
  have hlt : i < plan.ranges.length := (List.getElem?_eq_some_iff.1 hi).1
  refine ⟨idx, r, i, rfl, rfl, hsole, hsafe, hlt, hi,
    hsafe.entersRange hsole hplan (fun t ht => ?_) i hlt⟩
  have hleaves := (siBuildQueryPlan_for hparsed hne hu hplan).leaves t ht
  exact (evalKey_outcome hfs hk hleaves).faultsOnlyMember

/-- What is scanned has a plan. -/
theorem exists_plan_of_scanned (hparsed : Leaves (fun p => p.t.Parsed) q.root)
    (hu : Unmarked q.root) (hnum : q.root.numLeaves ≤ q.numPredicates)
    (hscanned : scanned spec.types.length q.root ≠ []) :
    ∃ q' plan, siBuildQueryPlan q spec = .ok (q', some plan) := by
  have hne : Leaves (fun p => p.t.isNotEquals = false) q.root :=
    hparsed.mono fun p hp => hp.isNotEquals
  obtain ⟨q', plan, hplan, hnone⟩ : ∃ q' plan, siBuildQueryPlan q spec = .ok (q', plan) ∧
      (plan = none ↔ scanned spec.types.length q.root = []) :=
    siBuildQueryPlan_ok hparsed hne hu hnum
  cases plan with
  | none => exact absurd (hnone.1 rfl) hscanned
  | some plan => exact ⟨q', plan, hplan⟩

/-- The constants of the ranges fit, because every range is entered. -/
theorem TypeSound.scan (hsound : TypeSound spec q) (hfs : CmpFuncsOf spec.types fs)
    (hparsed : Leaves (fun p => p.t.Parsed) q.root) (hu : Unmarked q.root)
    (hnum : q.root.numLeaves ≤ q.numPredicates)
    (hnil : ∀ p ∈ scanned spec.types.length q.root, p.t ≠ .inList []) :
    ∀ p ∈ scanned spec.types.length q.root, p.OfColumn spec.types := by
  have hne : Leaves (fun p => p.t.isNotEquals = false) q.root :=
    hparsed.mono fun p hp => hp.isNotEquals
  obtain ⟨hlast, hcols, hlen, _, hleaves⟩ := splitScan_spec spec.types.length 0 (conjuncts q.root)
  by_contra hbad
  have hscanned : scanned spec.types.length q.root ≠ [] := by
    intro hscanned
    exact hbad (by simp [hscanned])
  obtain ⟨q', plan, hplan⟩ := exists_plan_of_scanned hparsed hu hnum hscanned
  obtain ⟨r, hr⟩ := (exists_range_iff_ne_nil hne).2 hnil
  obtain ⟨ks₀, hks₀, _⟩ := mem_buildKey.1 hr
  have hranges : ∀ p ∈ scanned spec.types.length q.root, rangesOf p ≠ [] :=
    fun p hp => exists_choice_iff.1 ⟨ks₀, hks₀⟩ _ (List.mem_map_of_mem hp)
  -- A tuple that is compared with the wrong constant, and the range that has it.
  obtain ⟨ks, k, hks, hk, hwrong⟩ := exists_wrong_tuple hfs hcols hlast
    (hleaves _ (leaves_conjuncts hparsed)).1 hranges (by rwa [Nat.zero_add]) hbad
  have hmem : siPlanRangeOf ks ∈ plan.ranges := by
    rw [(siBuildQueryPlan_for hparsed hne hu hplan).ranges]
    exact mem_buildKey.2 ⟨ks, hks, rfl⟩
  obtain ⟨idx, r, i, rfl, rfl, hsole, _, _, hi, _, it, cr, _, hcr, hit, _⟩ :=
    hsound.entersRange hfs hk hparsed hu hplan hmem
  obtain rfl := Option.some.inj (hi.symm.trans hcr)
  exact hsole.iterateRange_ne_ok hwrong it hit

/-- A query that is type sound has constants that fit as far as they are compared. -/
theorem TypeSound.constantsFit (hsound : TypeSound spec q) (hfs : CmpFuncsOf spec.types fs)
    (hparsed : Leaves (fun p => p.t.Parsed) q.root) (hu : Unmarked q.root)
    (hnum : q.root.numLeaves ≤ q.numPredicates) : ConstantsFit spec.types fs q.root := by
  have hne : Leaves (fun p => p.t.isNotEquals = false) q.root :=
    hparsed.mono fun p hp => hp.isNotEquals
  have hscan := hsound.scan hfs hparsed hu hnum
  refine ⟨hscan, fun hscanned k hk hholds => ?_⟩
  obtain ⟨q', plan, hplan⟩ := exists_plan_of_scanned hparsed hu hnum hscanned
  have hfor := siBuildQueryPlan_for hparsed hne hu hplan
  -- The tuple is in some range, where the filter is run on it.
  obtain ⟨cr, hcr, hin⟩ := (exists_range_iff hfs hk hparsed).2 hholds
  have hfit : Fitting spec.types cr.min ∧ Fitting spec.types cr.max :=
    fitting_range (hscan ((exists_range_iff_ne_nil hne).1 ⟨cr, hcr⟩)) hcr
  rw [← hfor.ranges] at hcr
  obtain ⟨idx, r, i, rfl, rfl, hsole, hsafe, hlt, hi, fuel, it, cr', hfuel, hcr', hit, hruns⟩ :=
    hsound.entersRange hfs hk hparsed hu hplan hcr
  obtain rfl := Option.some.inj (hi.symm.trans hcr')
  obtain ⟨hoffset, hcurrent⟩ := hsole.iterateRange_of_inRange hfit hin hit
  have hfilter : ∀ t ∈ plan.filterTree,
      Outcome (evalKey k (checkedFuncs idx.spec.types idx.cmpFuncs) t)
        (Confuses idx.spec.types idx.cmpFuncs k t) (PassesFilter idx.cmpFuncs k t) :=
    fun t ht => evalKey_outcome hfs hk (hfor.leaves t ht)
  have havoids := (EntersRange.passesFilter hsafe hsole
    (fun t ht => (hfilter t ht).faultsOnlyMember) hruns hcurrent hoffset hfuel hlt).1
  rw [hsole.passesFilter_eq] at havoids
  rw [← hfor.filter]
  cases htree : plan.filterTree with
  | none => exact id
  | some t =>
      intro hconfuses
      rw [htree] at havoids
      refine havoids ((hfilter t htree).faults ?_)
      exact (confuses_iff_conjuncts (hfor.leaves t htree)).2 hconfuses

end Sound

/-- A `strtod` that finds no number. -/
def noNumber : List UInt8 → Strtod := fun _ => { val := 0, failed := false, noDigits := true }

/-- An index of a column of integers and one of strings. -/
def int64StringSpec : SISpec := twoColumns .int64 .string 0

/-- `$1 = 1 AND $2 LIKE 'a%' OR $1 > 7`, as it is parsed. -/
def threePredicates : SIQuery where
  root := siQueryNewLogicNode (siPredEquals 0 (.int64 1)) .opAnd
    (siQueryNewLogicNode (siPredBetween 1 (.string [97]) (.string [97, 255]) false false) .opOr
      (siPredBetween 0 (.int64 7) .inf true false))
  numPredicates := 3

/-- `$1 = 1`, as it is parsed. -/
def columnIsOne : SIQuery where
  root := .pred false { propId := 0, t := .eq (.int64 1) }
  numPredicates := 1

end Secondary
