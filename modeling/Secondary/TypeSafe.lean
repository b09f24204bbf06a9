import Secondary.FindSpec
import Secondary.Query.Types
import Secondary.Skiplist.Memory

/-!
# TypeSafe — the values that a cursor compares

With checked comparators an index faults where a comparator gets a value of another type, so
`TypeSafe` says that `compoundIndex_Find` and its cursors compare every value in its own column.
When all constants fit their columns this holds of every index, in whatever order its nodes are.
In an index whose nodes ascend, the filter is only run on tuples that the scanned predicates hold
of, and there the constants of the filter need to fit only as far as it is evaluated.
-/

namespace Secondary

open Lib

/-! ## Comparing in one's own column -/

/-- The index with comparators that refuse values of other types. -/
def CompoundIndex.checked (idx : CompoundIndex) : CompoundIndex :=
  { idx with cmpFuncs := checkedFuncs idx.spec.types idx.cmpFuncs }

/-- A cursor that `compoundIndex_Find` returns, after some calls of `Next`. -/
inductive CursorOf (idx : CompoundIndex) (q : SIQuery) : CiScanCtx → Prop
  | find {q' : SIQuery} {error : Int} {sc : CiScanCtx}
      (find : compoundIndexFind idx q = .ok (q', { error := error, ctx := some sc })) :
      CursorOf idx q sc
  | next {sc sc' : CiScanCtx} {id : Option SIId} (cursor : CursorOf idx q sc)
      (next : scanNext idx sc = .ok (sc', id)) : CursorOf idx q sc'

/-- No comparator gets a value of another type, neither in `compoundIndex_Find` nor in its
cursor. -/
structure TypeSafe (idx : CompoundIndex) (q : SIQuery) : Prop where
  find : Avoids (compoundIndexFind idx.checked q) Fault.member
  next : ∀ {sc}, CursorOf idx.checked q sc → Avoids (scanNext idx.checked sc) Fault.member

/-- The stored tuples have values of the types of the columns, NaN too, or NULL. -/
structure StoresTyped (idx : CompoundIndex) : Prop where
  cmpFuncs : CmpFuncsOf idx.spec.types idx.cmpFuncs
  stored : ∀ {x r k}, idx.sl.nodes.objAt? x = some r → idx.keys.cell r = some k →
    Stored idx.spec.types k

/-- An invariant of the cursor under which the comparators get values of their columns. -/
theorem TypeSafe.of_invariant {idx : CompoundIndex} {q : SIQuery} {I : CiScanCtx → Prop}
    (hplan : Avoids (siBuildQueryPlan q idx.spec) Fault.member)
    (hstart : ∀ {q' plan}, siBuildQueryPlan q idx.spec = .ok (q', some plan) →
      Ends (CiScanCtx.startRange idx.checked { plan := plan, currentScanRange := 0, it := none })
        Fault.member I)
    (hvalue : ∀ {sc it n}, I sc → sc.currentScanRange < sc.plan.ranges.length → sc.it = some it →
      it.current = some n → Avoids (passesFilter idx.checked sc.plan n) Fault.member ∧
        Ends (skiplistIteratorNext idx.checked.compareBound idx.sl it) Fault.member fun r =>
          I { sc with it := some r.1 })
    (hrange : ∀ {sc : CiScanCtx}, I sc → sc.currentScanRange < sc.plan.ranges.length →
      Ends (CiScanCtx.startRange idx.checked
        { sc with currentScanRange := sc.currentScanRange + 1 }) Fault.member I) :
    TypeSafe idx q := by
  have hnext : ∀ sc, I sc → Ends (scanNext idx.checked sc) Fault.member fun r => I r.1 :=
    fun sc => scanLoop_ends (by decide) (by decide) hvalue hrange _ sc
  have hfind : Ends (compoundIndexFind idx.checked q) Fault.member fun r => ∀ sc ∈ r.2.ctx, I sc := by
    unfold compoundIndexFind
    split_ifs
    · exact ends_ok (by simp)
    · refine hplan.ends.bind fun r hr _ => ?_
      obtain ⟨q', plan⟩ := r
      cases plan with
      | none => exact ends_ok (by simp)
      | some plan => exact (hstart hr).bind fun sc _ hsc => ends_ok (by simpa using hsc)
  have hcursor : ∀ {sc}, CursorOf idx.checked q sc → I sc := by
    intro sc h
    induction h with
    | find find => exact hfind.2 _ find _ rfl
    | next _ next ih => exact (hnext _ ih).2 _ next
  exact ⟨hfind.1, fun h => (hnext _ (hcursor h)).1⟩

/-! ## Constants that all fit -/

/-- The comparison of a constant with the value of its column is all right. -/
theorem ComparedWith.mem_constants {f : SIKeyCmpFunc} {v w : SIValue} {p : SIPredicateType}
    (h : ComparedWith f v w p) : w ∈ p.constants := by
  cases p with
  | eq w' => exact List.mem_singleton.2 h
  | ne w' => exact List.mem_singleton.2 h
  | rng min max minExclusive maxExclusive =>
      rcases h with rfl | ⟨rfl, _⟩ <;> simp [SIPredicateType.constants]
  | inList ws =>
      obtain ⟨before, after, rfl, _⟩ := h
      simp [SIPredicateType.constants]
  | isNull w' => exact h.elim

/-- A tree whose constants fit compares no value with a constant of another type. -/
theorem not_confuses_of_ofColumn {types : List SIType} {fs : List SIKeyCmpFunc} {k : SIMultiKey}
    {n : SIQueryNode} (hn : Leaves (SIPredicate.OfColumn types) n) : ¬Confuses types fs k n := by
  induction n with
  | null => exact hn.elim
  | pred passthru p =>
      rintro ⟨_, t, ht, hpos, f, v, _, _, w, hw, hwrong⟩
      exact hwrong (hn hpos t ht w hw.mem_constants)
  | logic passthru op left right ihl ihr =>
      rintro ⟨_, hleft | ⟨_, hright⟩⟩
      · exact ihl hn.1 hleft
      · exact ihr hn.2 hright

section AnyOrder

variable {idx : CompoundIndex} {sc : CiScanCtx}

/-- A comparison with a bound that fits. -/
theorem StoresTyped.asks_compareBound (h : StoresTyped idx) {bound : SIMultiKey}
    (hb : Fitting idx.spec.types bound) :
    AsksAvoiding Fault.member idx.sl.nodes fun r => idx.checked.compareBound r bound := by
  intro x r hr
  refine (avoids_orFault (by decide)).bind fun k hk => ?_
  obtain ⟨c, _, hc⟩ := siCmpMultiKey_checked h.cmpFuncs (h.stored hr (orFault_eq_ok.1 hk)) hb
  rw [show siCmpMultiKey idx.checked.cmpFuncs k bound = .ok c from hc]
  exact avoids_ok c

/-- The filter on a node, where its tuple does not confuse the filter. -/
theorem StoresTyped.avoids_passesFilter (h : StoresTyped idx) {plan : SIQueryPlan} {n : Nat}
    {P : SIPredicate → Prop} (hleaves : ∀ t ∈ plan.filterTree, Leaves P t)
    (hn : ∀ r k, idx.sl.nodes.objAt? n = some r → idx.keys.cell r = some k →
      ∀ t ∈ plan.filterTree, ¬Confuses idx.spec.types idx.cmpFuncs k t) :
    Avoids (passesFilter idx.checked plan n) Fault.member := by
  refine (avoids_orFault (by decide)).bind fun r hr => ?_
  cases htree : plan.filterTree with
  | none => exact avoids_ok _
  | some t =>
      refine (avoids_orFault (by decide)).bind fun k hk => ?_
      have hobj := Nodes.objAt_eq_ok hr
      have hcell := orFault_eq_ok.1 hk
      have hmem : t ∈ plan.filterTree := by simp [htree]
      obtain ⟨b, hb, _⟩ := (evalKey_outcome h.cmpFuncs (h.stored hobj hcell)
        (hleaves t hmem)).returns (hn r k hobj hcell t hmem)
      rw [show evalKey k idx.checked.cmpFuncs t = .ok b from hb]
      exact avoids_ok b

/-- A cursor all of whose constants fit. -/
structure ScanFits (idx : CompoundIndex) (sc : CiScanCtx) : Prop where
  ranges : ∀ r ∈ sc.plan.ranges, Fitting idx.spec.types r.min ∧ Fitting idx.spec.types r.max
  filter : ∀ t ∈ sc.plan.filterTree, Leaves (SIPredicate.OfColumn idx.spec.types) t
  rangeMax : ∀ it ∈ sc.it, ∀ m ∈ it.rangeMax, Fitting idx.spec.types m

theorem ScanFits.startRange (h : StoresTyped idx) (hsc : ScanFits idx sc) :
    Ends (sc.startRange idx.checked) Fault.member (ScanFits idx) := by
  unfold CiScanCtx.startRange
  cases hr : sc.currentRange with
  | none => exact ends_ok hsc
  | some r =>
      obtain ⟨hmin, hmax⟩ := hsc.ranges r (List.mem_of_getElem? hr)
      have hscan : Avoids (idx.checked.iterateRange r) Fault.member := by
        refine avoids_skiplistIterateRange (by decide) (by decide) (h.asks_compareBound hmin) ?_ _ _
        rintro m ⟨⟩
        exact h.asks_compareBound hmax
      refine hscan.ends.bind fun it hit _ => ends_ok ⟨hsc.ranges, hsc.filter, ?_⟩
      rintro _ ⟨⟩ m hm
      obtain ⟨_, _, hit⟩ := bind_eq_ok.1 hit
      obtain ⟨_, _, hit⟩ := bind_eq_ok.1 hit
      obtain rfl := Except.ok.inj hit
      obtain rfl : r.max = m := Option.some.inj hm
      exact hmax

/-- An iterator keeps the end of its range. -/
theorem rangeMax_iteratorNext {it it' : SkiplistIterator SIMultiKey} {id : Option SIId}
    {compare : KeyRef → SIMultiKey → Exec Int} {sl : Skiplist KeyRef SIId}
    (h : skiplistIteratorNext compare sl it = .ok (it', id)) : it'.rangeMax = it.rangeMax := by
  unfold skiplistIteratorNext at h
  cases hcurrent : it.current with
  | none =>
      rw [hcurrent] at h
      obtain ⟨rfl, _⟩ := Prod.mk.inj (Except.ok.inj h)
      rfl
  | some x =>
      rw [hcurrent] at h
      obtain ⟨node, _, h⟩ := bind_eq_ok.1 h
      dsimp only at h
      split_ifs at h
      · obtain ⟨_, _, h⟩ := bind_eq_ok.1 h
        obtain ⟨_, _, h⟩ := bind_eq_ok.1 h
        obtain ⟨rfl, _⟩ := Prod.mk.inj (Except.ok.inj h)
        rfl
      · obtain ⟨rfl, _⟩ := Prod.mk.inj (Except.ok.inj h)
        rfl
      · obtain ⟨_, _, h⟩ := bind_eq_ok.1 h
        obtain ⟨_, _, h⟩ := bind_eq_ok.1 h
        obtain ⟨rfl, _⟩ := Prod.mk.inj (Except.ok.inj h)
        rfl
      · obtain ⟨rfl, _⟩ := Prod.mk.inj (Except.ok.inj h)
        rfl

theorem ScanFits.iteratorNext (h : StoresTyped idx) (hsc : ScanFits idx sc)
    {it : SkiplistIterator SIMultiKey} (hit : sc.it = some it) :
    Ends (skiplistIteratorNext idx.checked.compareBound idx.sl it) Fault.member fun r =>
      ScanFits idx { sc with it := some r.1 } := by
  have hmax := hsc.rangeMax it hit
  refine ⟨avoids_skiplistIteratorNext (by decide) fun m hm => h.asks_compareBound (hmax m hm), ?_⟩
  rintro ⟨it', id⟩ hnext
  refine ⟨hsc.ranges, hsc.filter, ?_⟩
  rintro _ ⟨⟩ m hm
  exact hmax m (rangeMax_iteratorNext hnext ▸ hm)

/-- Where all constants fit, every index is compared within its columns. -/
theorem typeSafe_of_ofColumn (h : StoresTyped idx) {q : SIQuery}
    (hn : Leaves (SIPredicate.OfColumn idx.spec.types) q.root)
    (hne : Leaves (fun p => p.t.isNotEquals = false) q.root) (hu : Unmarked q.root)
    (hnum : q.root.numLeaves ≤ q.numPredicates) : TypeSafe idx q := by
  have hplans : Avoids (siBuildQueryPlan q idx.spec) Fault.member := by
    obtain ⟨q', plan, hplan, _⟩ := siBuildQueryPlan_ok hn hne hu hnum
    rw [hplan]
    exact avoids_ok _
  refine TypeSafe.of_invariant (I := ScanFits idx) hplans ?_ ?_ ?_
  · intro q' plan hplan
    have hfor := siBuildQueryPlan_for hn hne hu hplan
    have hcolumns := ((splitScan_spec idx.spec.types.length 0 (conjuncts q.root)).2.2.2.2 _
      (leaves_conjuncts hn)).1
    refine ScanFits.startRange h ⟨fun r hr => ?_, hfor.leaves, by simp⟩
    rw [hfor.ranges] at hr
    exact fitting_range hcolumns hr
  · intro sc it n hsc _ hit _
    refine ⟨h.avoids_passesFilter hsc.filter fun r k _ _ t ht => ?_, hsc.iteratorNext h hit⟩
    exact not_confuses_of_ofColumn (hsc.filter t ht)
  · intro sc hsc _
    exact ScanFits.startRange h ⟨hsc.ranges, hsc.filter, hsc.rangeMax⟩

end AnyOrder

/-! ## Nodes that ascend -/

/-- A skiplist of tuples that have values of the types of the columns, or NULL. -/
structure TypedIndex (idx : CompoundIndex) (bs : List (Bucket KeyRef SIId)) : Prop where
  cmpFuncs : CmpFuncsOf idx.spec.types idx.cmpFuncs
  rep : Rep idx.sl bs
  nonempty : ∀ b ∈ bs, b.vals ≠ []
  stored : ∀ b ∈ bs, ∃ k, idx.keys.cell b.key = some k ∧ Stored idx.spec.types k

/-- The nodes before a scan range of the tree stand in front of the others. -/
def AscendsFor (idx : CompoundIndex) (n : SIQueryNode) (bs : List (Bucket KeyRef SIId)) : Prop :=
  ∀ r ∈ buildKey ((scanned idx.spec.types.length n).map rangesOf) [],
    Cut (fun b : Bucket KeyRef SIId => belowRange idx r b.key) bs

/-- The constants fit as far as they are compared: those of the scanned predicates, if there is a
range to scan, and those that the filter gets to on a tuple that is scanned. -/
structure ConstantsFit (types : List SIType) (fs : List SIKeyCmpFunc) (n : SIQueryNode) : Prop where
  scan : (∀ p ∈ scanned types.length n, p.t ≠ .inList []) →
    ∀ p ∈ scanned types.length n, p.OfColumn types
  filter : scanned types.length n ≠ [] → ∀ k, Stored types k →
    (∀ p ∈ scanned types.length n, AtColumn PredHolds fs k p) →
      ¬ConfusesInTurn types fs k (filtered types.length n)

/-- The cursor stands at a node of its range, or has none left there. -/
def StandsIn (idx : CompoundIndex) (bs : List (Bucket KeyRef SIId)) (sc : CiScanCtx) : Prop :=
  ∃ pending, ScanAt idx bs sc pending ∧
    ∀ r ∈ sc.currentRange, ∀ b ∈ pending, belowRange idx r b.key = false

theorem advance_keys {pending : List (Bucket KeyRef SIId)} {b : Bucket KeyRef SIId}
    (h : b ∈ advance pending) : ∃ d ∈ pending, d.key = b.key := by
  cases pending with
  | nil => cases h
  | cons d ds =>
      rcases hvals : d.vals with _ | ⟨v, _ | ⟨w, vs⟩⟩
      · exact ⟨b, by simp_all [advance], rfl⟩
      · exact ⟨b, by simp_all [advance], rfl⟩
      · -- The first node keeps its key.
        simp only [advance, hvals] at h
        rcases List.mem_cons.1 h with rfl | h
        · exact ⟨d, by simp, rfl⟩
        · exact ⟨b, by simp [h], rfl⟩

section Ascending

variable {idx : CompoundIndex} {bs : List (Bucket KeyRef SIId)} {b : Bucket KeyRef SIId}
  {sc : CiScanCtx} {r : SIPlanRange}

/-- Nodes of an index that keeps its invariant ascend, if the ends of the ranges fit. -/
theorem ListInv.ascendsFor (h : ListInv idx bs) {n : SIQueryNode}
    (hr : ∀ r ∈ buildKey ((scanned idx.spec.types.length n).map rangesOf) [],
      RangeOk idx.spec.types r) : AscendsFor idx n bs :=
  fun r hmem => cut_belowRange h (hr r hmem)

theorem ListInv.typedIndex (h : ListInv idx bs) : TypedIndex idx bs where
  cmpFuncs := h.cmpFuncs
  rep := h.rep
  nonempty := h.nonempty
  stored := by
    intro b hb
    obtain ⟨k, hk, hok⟩ := h.key_live hb
    exact ⟨k, hk, hok.imp fun _ _ hv => hv.imp_right And.left⟩

theorem TypedIndex.storesTyped (h : TypedIndex idx bs) : StoresTyped idx where
  cmpFuncs := h.cmpFuncs
  stored := by
    intro x r k hx hr
    obtain ⟨b, hb, rfl⟩ := h.rep.only x r hx
    obtain rfl := Option.some.inj ((h.rep.obj b hb).symm.trans hx)
    obtain ⟨k', hk', hstored⟩ := h.stored b hb
    obtain rfl := Option.some.inj (hk'.symm.trans hr)
    exact hstored

/-- The comparison of a node with a bound that fits. -/
theorem TypedIndex.compareBound (h : TypedIndex idx bs) (hb : b ∈ bs) {k : SIMultiKey}
    (hk : idx.keys.cell b.key = some k) {bound : SIMultiKey} (hfit : Fitting idx.spec.types bound) :
    siCmpMultiKey idx.cmpFuncs k bound = .ok (boundCmp idx bound b.key) ∧
      idx.checked.compareBound b.key bound = .ok (boundCmp idx bound b.key) := by
  obtain ⟨k', hk', hstored⟩ := h.stored b hb
  obtain rfl := Option.some.inj (hk'.symm.trans hk)
  obtain ⟨c, hc, hchecked⟩ := siCmpMultiKey_checked h.cmpFuncs hstored hfit
  have hcmp : boundCmp idx bound b.key = c := by
    simp [boundCmp, CompoundIndex.compareBound, Secondary.compareBound, readKey_of_cell hk, hc,
      returned]
  rw [hcmp]
  refine ⟨hc, ?_⟩
  rw [CompoundIndex.compareBound, Secondary.compareBound,
    show readKey idx.checked.keys b.key = .ok k' from readKey_of_cell hk]
  exact hchecked

theorem TypedIndex.clipsAt (h : TypedIndex idx bs) (hfit : Fitting idx.spec.types r.max) :
    ClipsAt idx.checked.compareBound (some r.max) r.maxExclusive (aboveRange idx r) bs := by
  intro b hb
  obtain ⟨k, hk, _⟩ := h.stored b hb
  simp [aboveBound, (h.compareBound hb hk hfit).2, aboveRange]

/-- Entering a range, a cursor stands at its first node. -/
theorem TypedIndex.startRange (h : TypedIndex idx bs)
    (hfit : ∀ r ∈ sc.plan.ranges, Fitting idx.spec.types r.min ∧ Fitting idx.spec.types r.max)
    (hcut : ∀ r ∈ sc.plan.ranges, Cut (fun b : Bucket KeyRef SIId => belowRange idx r b.key) bs) :
    Ends (sc.startRange idx.checked) Fault.member fun sc' =>
      sc'.plan = sc.plan ∧ StandsIn idx bs sc' := by
  unfold CiScanCtx.startRange
  cases hr : sc.currentRange with
  | none => exact ends_ok ⟨rfl, [], by simp [ScanAt, hr], by simp [hr]⟩
  | some r =>
      have hmem := List.mem_of_getElem? hr
      have hcompares : Compares idx.checked.compareBound r.min (boundCmp idx r.min) bs := by
        intro b hb
        obtain ⟨k, hk, _⟩ := h.stored b hb
        exact (h.compareBound hb hk (hfit r hmem).1).2
      obtain ⟨it, hrun, hmax, hexcl, hit⟩ := h.rep.iterateRange h.nonempty hcompares
        r.minExclusive r.maxExclusive (h.clipsAt (hfit r hmem).2) (hcut r hmem)
      have hstart : idx.checked.iterateRange r = .ok it := hrun
      dsimp only
      rw [hstart, ok_bind]
      have hr' : ({ sc with it := some it } : CiScanCtx).currentRange = some r := hr
      refine ends_ok ⟨rfl, inRange (belowRange idx r) (aboveRange idx r) bs, ?_, ?_⟩
      · simp only [ScanAt, hr']
        exact ⟨it, rfl, hmax, hexcl, hit⟩
      · rw [hr']
        rintro _ ⟨⟩ b hb
        exact (hcut r hmem).dropWhile_eq_false b ((List.takeWhile_sublist _).subset hb)

/-- Going on by one value, it stays in its range. -/
theorem TypedIndex.iteratorNext (h : TypedIndex idx bs) (hstands : StandsIn idx bs sc)
    (hr : sc.currentRange = some r) (hfit : Fitting idx.spec.types r.max)
    {it : SkiplistIterator SIMultiKey} (hit : sc.it = some it) :
    Ends (skiplistIteratorNext idx.checked.compareBound idx.sl it) Fault.member fun p =>
      StandsIn idx bs { sc with it := some p.1 } := by
  obtain ⟨pending, hat, hbelow⟩ := hstands
  simp only [ScanAt, hr] at hat
  obtain ⟨it₁, hit₁, hmax, hexcl, hiter⟩ := hat
  obtain rfl := Option.some.inj (hit.symm.trans hit₁)
  have hclip := h.clipsAt hfit
  rw [← hmax, ← hexcl] at hclip
  obtain ⟨it', hnext, hmax', hexcl', hiter'⟩ := h.rep.iteratorNext h.nonempty hclip hiter
  rw [show skiplistIteratorNext idx.checked.compareBound idx.sl it = _ from hnext]
  have hr' : ({ sc with it := some it' } : CiScanCtx).currentRange = some r := hr
  refine ends_ok ⟨advance pending, ?_, ?_⟩
  · simp only [ScanAt, hr']
    exact ⟨it', rfl, hmax'.trans hmax, hexcl'.trans hexcl, hiter'⟩
  · rw [hr']
    rintro _ ⟨⟩ b hb
    obtain ⟨d, hd, hkey⟩ := advance_keys hb
    rw [← hkey]
    exact hbelow r hr d hd

/-- The node that it stands at is in its range. -/
theorem StandsIn.exists_bucket (hstands : StandsIn idx bs sc) (hr : sc.currentRange = some r)
    {it : SkiplistIterator SIMultiKey} (hit : sc.it = some it) {n : Nat}
    (hcurrent : it.current = some n) :
    ∃ b ∈ bs, b.tag = n ∧ belowRange idx r b.key = false ∧ aboveRange idx r b.key = false := by
  obtain ⟨pending, hat, hbelow⟩ := hstands
  simp only [ScanAt, hr] at hat
  obtain ⟨it₁, hit₁, _, _, hiter⟩ := hat
  obtain rfl := Option.some.inj (hit.symm.trans hit₁)
  cases hiter with
  | done current => cases hcurrent.symm.trans current
  | «at» as b cs split current _ within =>
      refine ⟨b, by simp [split], Option.some.inj (current.symm.trans hcurrent), ?_, within⟩
      exact hbelow r hr { b with vals := b.vals.drop it.currentValOffset } (by simp)

/-- The tuple of a node in a scan range is in the range. -/
theorem TypedIndex.notBelow_notAbove (h : TypedIndex idx bs) (hb : b ∈ bs) {k : SIMultiKey}
    (hk : idx.keys.cell b.key = some k)
    (hfit : Fitting idx.spec.types r.min ∧ Fitting idx.spec.types r.max)
    (hbelow : belowRange idx r b.key = false) (habove : aboveRange idx r b.key = false) :
    NotBelow idx.cmpFuncs r k ∧ NotAbove idx.cmpFuncs r k := by
  have hmin := (h.compareBound hb hk hfit.1).1
  have hmax := (h.compareBound hb hk hfit.2).1
  simp only [belowRange, aboveRange, decide_eq_false_iff_not] at hbelow habove
  refine ⟨⟨_, hmin, ?_⟩, _, hmax, ?_⟩
  · cases hexcl : r.minExclusive <;> simp [hexcl] at hbelow ⊢ <;> omega
  · cases hexcl : r.maxExclusive <;> simp [hexcl] at habove ⊢ <;> omega

end Ascending

/-! ## Tuples in scan ranges -/

section Scanned

variable {types : List SIType} {fs : List SIKeyCmpFunc} {k : SIMultiKey} {n : SIQueryNode}

/-- A tuple is in a scan range of a tree when the scanned predicates hold of it. -/
theorem exists_range_iff (hfs : CmpFuncsOf types fs) (hk : Stored types k)
    (hn : Leaves (fun p => p.t.Parsed) n) :
    (∃ r ∈ buildKey ((scanned types.length n).map rangesOf) [],
        NotBelow fs r k ∧ NotAbove fs r k) ↔
      ∀ p ∈ scanned types.length n, AtColumn PredHolds fs k p := by
  obtain ⟨hlast, hcols, hlen, _, hleaves⟩ := splitScan_spec types.length 0 (conjuncts n)
  have hparsed := (hleaves _ (leaves_conjuncts hn)).1
  have hholds : (∃ ks, List.Forall₂ (· ∈ ·) ks ((scanned types.length n).map rangesOf) ∧
      KeyHolds fs k ks) ↔ ∀ p ∈ scanned types.length n, AtColumn PredHolds fs k p :=
    exists_keyHolds_iff hfs hk hcols hparsed (by rwa [Nat.zero_add])
  have hrange : ∀ {ks}, List.Forall₂ (· ∈ ·) ks ((scanned types.length n).map rangesOf) →
      (NotBelow fs (siPlanRangeOf ks) k ∧ NotAbove fs (siPlanRangeOf ks) k ↔ KeyHolds fs k ks) := by
    intro ks hks
    have hkslen : ks.length ≤ types.length := by
      rw [hks.length_eq, List.length_map]
      exact hlen
    exact inRange_iff_keyHolds (pointKeys_choice hlast hks) (hkslen.trans_eq hfs.length_eq)
      (hkslen.trans_eq hk.length_eq)
  rw [← hholds]
  constructor
  · rintro ⟨r, hr, hin⟩
    obtain ⟨ks, hks, rfl⟩ := mem_buildKey.1 hr
    exact ⟨ks, hks, (hrange hks).1 hin⟩
  · rintro ⟨ks, hks, hkey⟩
    exact ⟨_, mem_buildKey.2 ⟨ks, hks, rfl⟩, (hrange hks).2 hkey⟩

/-- There is a range when no list among the scanned predicates is empty. -/
theorem exists_range_iff_ne_nil (hn : Leaves (fun p => p.t.isNotEquals = false) n) :
    (∃ r, r ∈ buildKey ((scanned types.length n).map rangesOf) []) ↔
      ∀ p ∈ scanned types.length n, p.t ≠ .inList [] := by
  obtain ⟨_, _, _, _, hleaves⟩ := splitScan_spec types.length 0 (conjuncts n)
  have hne : ∀ p ∈ scanned types.length n, p.t.isNotEquals = false :=
    (hleaves _ (leaves_conjuncts hn)).1
  have hempty : ∀ p ∈ scanned types.length n, (rangesOf p ≠ [] ↔ p.t ≠ .inList []) := by
    intro p hp
    cases ht : p.t with
    | ne w =>
        have hp' := hne p hp
        simp [ht, SIPredicateType.isNotEquals] at hp'
    | _ => simp [rangesOf, predicateToRanges, ht]
  calc (∃ r, r ∈ buildKey ((scanned types.length n).map rangesOf) [])
      ↔ ∃ ks, List.Forall₂ (· ∈ ·) ks ((scanned types.length n).map rangesOf) := by
        constructor
        · rintro ⟨r, hr⟩
          obtain ⟨ks, hks, _⟩ := mem_buildKey.1 hr
          exact ⟨ks, hks⟩
        · rintro ⟨ks, hks⟩
          exact ⟨_, mem_buildKey.2 ⟨ks, hks, rfl⟩⟩
    _ ↔ ∀ p ∈ scanned types.length n, rangesOf p ≠ [] := by
        rw [exists_choice_iff, List.forall_mem_map]
    _ ↔ ∀ p ∈ scanned types.length n, p.t ≠ .inList [] :=
        forall₂_congr hempty

end Scanned

/-- In an index whose nodes ascend, the values are compared within their columns where the
constants fit as far as they are compared. -/
theorem typeSafe_of_constantsFit {idx : CompoundIndex} {bs : List (Bucket KeyRef SIId)}
    {q : SIQuery} (h : TypedIndex idx bs) (hasc : AscendsFor idx q.root bs)
    (hparsed : Leaves (fun p => p.t.Parsed) q.root) (hu : Unmarked q.root)
    (hnum : q.root.numLeaves ≤ q.numPredicates)
    (hfit : ConstantsFit idx.spec.types idx.cmpFuncs q.root) : TypeSafe idx q := by
  have hne : Leaves (fun p => p.t.isNotEquals = false) q.root :=
    hparsed.mono fun p hp => hp.isNotEquals
  -- The ends of all ranges fit, because there is a range.
  have hends : ∀ r ∈ buildKey ((scanned idx.spec.types.length q.root).map rangesOf) [],
      Fitting idx.spec.types r.min ∧ Fitting idx.spec.types r.max :=
    fun r hr => fitting_range (hfit.scan ((exists_range_iff_ne_nil hne).1 ⟨r, hr⟩)) hr
  obtain ⟨q', plan, hplan, hnone⟩ : ∃ q' plan, siBuildQueryPlan q idx.spec = .ok (q', plan) ∧
      (plan = none ↔ scanned idx.spec.types.length q.root = []) :=
    siBuildQueryPlan_ok hparsed hne hu hnum
  -- Every range that is entered is a range of the scanned predicates.
  have hstart : ∀ {sc : CiScanCtx}, siBuildQueryPlan q idx.spec = .ok (q', some sc.plan) →
      Ends (sc.startRange idx.checked) Fault.member fun sc' =>
        siBuildQueryPlan q idx.spec = .ok (q', some sc'.plan) ∧ StandsIn idx bs sc' := by
    intro sc hsc
    have hranges := (siBuildQueryPlan_for hparsed hne hu hsc).ranges
    refine (h.startRange (fun r hr => hends r (hranges ▸ hr))
      (fun r hr => hasc r (hranges ▸ hr))).mono fun sc' _ hsc' => ⟨?_, hsc'.2⟩
    rw [hsc'.1]
    exact hsc
  refine TypeSafe.of_invariant
    (I := fun sc => siBuildQueryPlan q idx.spec = .ok (q', some sc.plan) ∧ StandsIn idx bs sc)
    (by rw [hplan]; exact avoids_ok _) ?_ ?_ fun hsc _ => hstart hsc.1
  · intro q'' plan' hplan'
    obtain ⟨rfl, _⟩ := Prod.mk.inj (Except.ok.inj (hplan.symm.trans hplan'))
    exact hstart hplan'
  · rintro sc it n ⟨hscplan, hstands⟩ hlt hit hcurrent
    have hfor := siBuildQueryPlan_for hparsed hne hu hscplan
    obtain ⟨r, hr⟩ : ∃ r, sc.currentRange = some r := ⟨_, List.getElem?_eq_getElem hlt⟩
    have hmem : r ∈ buildKey ((scanned idx.spec.types.length q.root).map rangesOf) [] := by
      rw [← hfor.ranges]
      exact List.mem_of_getElem? hr
    refine ⟨?_, (h.iteratorNext hstands hr (hends r hmem).2 hit).mono
      fun _ _ hnext => ⟨hscplan, hnext⟩⟩
    obtain ⟨b, hb, rfl, hbelow, habove⟩ := hstands.exists_bucket hr hit hcurrent
    refine h.storesTyped.avoids_passesFilter hfor.leaves fun key k hkey hk t ht => ?_
    obtain rfl := Option.some.inj ((h.rep.obj b hb).symm.trans hkey)
    have hstored := h.storesTyped.stored hkey hk
    -- The tuple is in the range, so the scanned predicates hold of it.
    have hscanned := (exists_range_iff h.cmpFuncs hstored hparsed).1
      ⟨r, hmem, h.notBelow_notAbove hb hk (hends r hmem) hbelow habove⟩
    have hnonempty : scanned idx.spec.types.length q.root ≠ [] := by
      intro hnil
      obtain ⟨_, hsome⟩ := Prod.mk.inj (Except.ok.inj (hplan.symm.trans hscplan))
      cases hsome.symm.trans (hnone.2 hnil)
    have hfilter := hfor.filter
    rw [Option.mem_def.1 ht] at hfilter
    rw [confuses_iff_conjuncts (hfor.leaves t ht),
      show conjuncts t = filtered idx.spec.types.length q.root from hfilter]
    exact hfit.filter hnonempty k hstored hscanned

end Secondary
