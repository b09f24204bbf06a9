import Secondary.FindSpec

/-!
# QueryExact — when a cursor returns exactly the ids that match

A cursor returns the ids whose tuple meets the scanned predicates and passes the filter.  A filter
lets nothing pass that the WHERE tree does not say, so no other id is returned; ids are missing
exactly when some tuple satisfies the tree and a filtered conjunct turns it down.
-/

namespace Secondary

open Lib

variable {idx : CompoundIndex} {bs : List (Bucket KeyRef SIId)} {id : SIId} {k : SIMultiKey}

/-- The key of a node has the places of the tuples of its ids. -/
theorem places_key (h : IndexInv idx bs) {b : Bucket KeyRef SIId} (hb : b ∈ bs)
    (hid : id ∈ b.vals) (hk : idx.content id = some k) : idx.places b.key = places k := by
  obtain ⟨r, hl, hcell⟩ := content_eq_some.1 hk
  have hsigns := (compareKeys_signs h.cmpFuncs (h.key_live hb) (h.live id r hl)).2
  have hplaces := hsigns.2.1 (h.same b hb id hid r hl)
  simpa [CompoundIndex.places, refPlaces, hcell] using hplaces

/-- The ids that a plan selects, node by node. -/
theorem mem_planIds {plan : SIQueryPlan} :
    id ∈ planIds idx plan bs ↔ ∃ b ∈ bs, id ∈ b.vals ∧ passes idx plan b.tag = true ∧
      ∃ r ∈ plan.ranges, inScan idx r b.key = true := by
  simp only [planIds, rangeIds, passing, List.mem_flatMap, Bucket.mem_allVals, List.mem_filter]
  constructor
  · rintro ⟨r, hr, b, ⟨⟨hb, hscan⟩, hpass⟩, hid⟩
    exact ⟨b, hb, hid, hpass, r, hr, hscan⟩
  · rintro ⟨b, hb, hid, hpass, r, hr, hscan⟩
    exact ⟨r, hr, b, ⟨⟨hb, hscan⟩, hpass⟩, hid⟩

/-- A plan selects the node of an id when the id's tuple meets the scanned predicates and the
filtered conjuncts. -/
theorem selects_iff (h : IndexInv idx bs) {n : SIQueryNode} {plan : SIQueryPlan}
    (hplan : PlanOf idx.spec.types n plan) (hn : Plannable idx.spec.types n)
    {b : Bucket KeyRef SIId} (hb : b ∈ bs) (hid : id ∈ b.vals) (hk : idx.content id = some k) :
    (passes idx plan b.tag = true ∧ ∃ r ∈ plan.ranges, inScan idx r b.key = true) ↔
      (∀ p ∈ scanned idx.spec.types.length n, AtColumn PredHolds idx.cmpFuncs k p) ∧
        ∀ a ∈ filtered idx.spec.types.length n, PassesFilter idx.cmpFuncs k a := by
  have hok := h.content_ok hk
  have hplaces := places_key h hb hid hk
  have hsplit := (splitScan_spec idx.spec.types.length 0 (conjuncts n)).2.2.2.2 _
    (leaves_conjuncts hn.typed)
  have hscan : (∃ r ∈ plan.ranges, inScan idx r b.key = true) ↔
      ∀ p ∈ scanned idx.spec.types.length n, AtColumn PredHolds idx.cmpFuncs k p := by
    have hranges := hplan.ranges (places k) (by simp [hok.length_eq])
    have hkeys : (∃ r ∈ plan.ranges, inScan idx r b.key = true) ↔
        ∃ r ∈ plan.ranges, r.interval.Holds ((places k).take r.min.length) := by
      refine exists_congr fun r => and_congr_right fun hr => ?_
      rw [inScan_iff h.list (h.key_live hb) (hplan.bounds r hr), hplaces]
    rw [hkeys, hranges]
    refine forall_congr' fun p => forall_congr' fun hp => ?_
    exact (atColumn_iff (fun _ _ _ _ hf hv hp => predHolds_iff hf hv hp) h.cmpFuncs hok
      (hsplit.1 p hp)).symm
  have hfilter : passes idx plan b.tag = true ↔
      ∀ a ∈ filtered idx.spec.types.length n, PassesFilter idx.cmpFuncs k a := by
    rw [(passesFilter_spec h.list hplan.planOk hb).2, hplaces]
    have hsays := hplan.filter (AtPlace FilterHoldsAt (places k))
    rw [FilterSays, hsays]
    refine forall_congr' fun a => forall_congr' fun ha => ?_
    exact (passesFilter_iff h.cmpFuncs hok (hsplit.2 a ha)).symm
  rw [hscan, hfilter, and_comm]

/-- The ids that a plan selects are those whose tuple meets the scanned predicates and passes the
filtered conjuncts. -/
theorem mem_planIds_iff (h : IndexInv idx bs) {n : SIQueryNode} {plan : SIQueryPlan}
    (hplan : PlanOf idx.spec.types n plan) (hn : Plannable idx.spec.types n) :
    id ∈ planIds idx plan bs ↔ ∃ k, idx.content id = some k ∧
      (∀ p ∈ scanned idx.spec.types.length n, AtColumn PredHolds idx.cmpFuncs k p) ∧
        ∀ a ∈ filtered idx.spec.types.length n, PassesFilter idx.cmpFuncs k a := by
  rw [mem_planIds]
  constructor
  · rintro ⟨b, hb, hid, hselect⟩
    obtain ⟨k, hk⟩ :=
      h.exists_content.1 ((h.mem id).1 (Bucket.mem_allVals.2 ⟨b, hb, hid⟩))
    exact ⟨k, hk, (selects_iff h hplan hn hb hid hk).1 hselect⟩
  · rintro ⟨k, hk, hmeets⟩
    obtain ⟨b, hb, hid⟩ := h.exists_bucket hk
    exact ⟨b, hb, hid, (selects_iff h hplan hn hb hid hk).2 hmeets⟩

/-- A tree says what its scanned predicates and its filtered conjuncts say. -/
theorem satisfies_iff_split {fs : List SIKeyCmpFunc} {props : Nat} {n : SIQueryNode} :
    Satisfies fs k n ↔ (∀ p ∈ scanned props n, AtColumn PredHolds fs k p) ∧
      ∀ a ∈ filtered props n, Satisfies fs k a := by
  rw [Satisfies, treeHolds_iff_conjuncts]
  exact (splitScan_spec props 0 (conjuncts n)).2.2.2.1 _

/-- A cursor comes from a plan. -/
theorem exists_plan_of_find {q q' : SIQuery} {c : SICursor} {sc : CiScanCtx}
    (hfind : compoundIndexFind idx q = .ok (q', c)) (hctx : c.ctx = some sc) :
    ∃ plan, siBuildQueryPlan q idx.spec = .ok (q', some plan) := by
  unfold compoundIndexFind at hfind
  split at hfind
  · cases hfind
    cases hctx
  · obtain ⟨⟨q₁, plan⟩, hplan, hfind⟩ := bind_eq_ok.1 hfind
    cases plan with
    | none =>
        cases hfind
        cases hctx
    | some plan =>
        obtain ⟨_, _, heq⟩ := bind_eq_ok.1 hfind
        cases heq
        exact ⟨plan, hplan⟩

/-- What a cursor returns satisfies the WHERE tree. -/
theorem satisfies_of_drains (h : IndexInv idx bs) {q q' : SIQuery} {c : SICursor} {sc : CiScanCtx}
    {ids : List SIId} (hq : Plannable idx.spec.types q.root)
    (hfind : compoundIndexFind idx q = .ok (q', c)) (hctx : c.ctx = some sc)
    (hdrains : Drains idx sc ids) (hid : id ∈ ids) :
    ∃ k, idx.content id = some k ∧ Satisfies idx.cmpFuncs k q.root := by
  obtain ⟨plan, hplan⟩ := exists_plan_of_find hfind hctx
  have hof := siBuildQueryPlan_spec hq hplan
  obtain ⟨sc', pending, hfind', hscplan, hat, hids⟩ := compoundIndexFind_spec h.list hplan hof.planOk
  obtain ⟨_, rfl⟩ := Prod.ext_iff.1 (Except.ok.inj (hfind.symm.trans hfind'))
  obtain rfl : sc' = sc := Option.some.inj hctx
  have hall := drains_toReturn h.list (by rw [hscplan]; exact hof.planOk) hat hids
  rw [hdrains.unique hall, mem_planIds_iff h hof hq] at hid
  obtain ⟨k, hk, hscan, hfilter⟩ := hid
  exact ⟨k, hk, satisfies_iff_split.2 ⟨hscan, fun a ha => .of_filter (hfilter a ha)⟩⟩

/-! ## Exactness -/

/-- Where no key was shared when it was dropped, a cursor returns exactly the ids whose tuple
satisfies the WHERE tree if and only if no such tuple is turned down by a conjunct that is left for
the filter. -/
theorem compoundIndexFind_exact_iff {spec : SISpec} {idx₀ idx : CompoundIndex}
    (hnew : siNewCompoundIndex spec = .ok idx₀) (css : List (List (SIChange × Level)))
    (htyped : ∀ cs ∈ css, Typed spec cs)
    (hkeys : spec.isUnique = true ∨ Every applyStep KeysNotShared idx₀ css)
    (hrun : run applyStep idx₀ css = .ok idx) {q q' : SIQuery} {plan : SIQueryPlan}
    (hq : Plannable spec.types q.root) (hplan : siBuildQueryPlan q spec = .ok (q', some plan)) :
    ∃ sc ids, compoundIndexFind idx q = .ok (q', { error := siCursorOk, ctx := some sc }) ∧
      Drains idx sc ids ∧
      ((∀ id, id ∈ ids ↔ ∃ k, idx.content id = some k ∧ Satisfies idx.cmpFuncs k q.root) ↔
        ∀ id k, idx.content id = some k → Satisfies idx.cmpFuncs k q.root →
          ∀ a ∈ filtered spec.numProps q.root, PassesFilter idx.cmpFuncs k a) := by
  obtain ⟨idx', hrun', ⟨rfl, bs, h⟩, _, _⟩ := (stands_new hnew).run htyped hkeys
  obtain rfl : idx = idx' := Except.ok.inj (hrun.symm.trans hrun')
  have hprops : idx.spec.numProps = idx.spec.types.length := by simp [SISpec.numProps, SISpec.types]
  have hof := siBuildQueryPlan_spec hq hplan
  obtain ⟨sc, pending, hfind, hscplan, hat, hids⟩ := compoundIndexFind_spec h.list hplan hof.planOk
  refine ⟨sc, _, hfind, drains_toReturn h.list (by rw [hscplan]; exact hof.planOk) hat hids, ?_⟩
  rw [hprops]
  constructor
  · intro hexact id k hk hsat
    obtain ⟨k', hk', _, hfilter⟩ :=
      (mem_planIds_iff h hof hq).1 ((hexact id).2 ⟨k, hk, hsat⟩)
    obtain rfl : k = k' := Option.some.inj (hk.symm.trans hk')
    exact hfilter
  · intro hfilter id
    rw [mem_planIds_iff h hof hq]
    refine exists_congr fun k => and_congr_right fun hk => ?_
    rw [satisfies_iff_split]
    constructor
    · exact fun hmeets => ⟨hmeets.1, fun a ha => .of_filter (hmeets.2 a ha)⟩
    · intro hsat
      exact ⟨hsat.1, hfilter id k hk (satisfies_iff_split.2 hsat)⟩

/-- `$1 = 1 AND $1 IN (1, 2)`: the IN is left for the filter. -/
def equalAndIn : SIQuery where
  root := siQueryNewLogicNode (siPredEquals 0 (.int32 1)) .opAnd
    (siPredIn 0 [.int32 1, .int32 2])
  numPredicates := 2

theorem plannable_equalAndIn : Plannable [.int32] equalAndIn.root where
  typed := by
    refine ⟨⟨by decide, .int32, rfl, ?_⟩, by decide, .int32, rfl, ?_⟩
    · exact Or.inl (Or.inr ⟨rfl, trivial⟩)
    · intro w hw
      have htype : w.type = .int32 ∧ w.NotNaN := by
        simp only [List.mem_cons, List.not_mem_nil, or_false] at hw
        rcases hw with rfl | rfl <;> exact ⟨rfl, trivial⟩
      exact Or.inl (Or.inr htype)
  noNotEquals := ⟨rfl, rfl⟩
  unmarked := ⟨rfl, rfl, rfl⟩

/-- A node of two ids, and one of them deleted; the query selects nothing by its filter. -/
theorem compoundIndexFind_exact_iff_int :
    ∃ idx₀ idx q' plan, siNewCompoundIndex (oneColumn .int32 0) = .ok idx₀ ∧
      run applyStep idx₀ [[add idA (.int32 1), add idB (.int32 1)], [del idB]] = .ok idx ∧
      siBuildQueryPlan equalAndIn (oneColumn .int32 0) = .ok (q', some plan) ∧
      ∃ sc ids, compoundIndexFind idx equalAndIn =
          .ok (q', { error := siCursorOk, ctx := some sc }) ∧
        Drains idx sc ids ∧
        ((∀ id, id ∈ ids ↔
            ∃ k, idx.content id = some k ∧ Satisfies idx.cmpFuncs k equalAndIn.root) ↔
          ∀ id k, idx.content id = some k → Satisfies idx.cmpFuncs k equalAndIn.root →
            ∀ a ∈ filtered (oneColumn .int32 0).numProps equalAndIn.root,
              PassesFilter idx.cmpFuncs k a) :=
  ⟨_, _, _, _, rfl, rfl, rfl,
    compoundIndexFind_exact_iff rfl [[add idA (.int32 1), add idB (.int32 1)], [del idB]]
      (by decide) (Or.inr (by decide +kernel)) rfl plannable_equalAndIn rfl⟩

/-- The id of `1` satisfies the tree, and the cursor does not return it. -/
theorem compoundIndexFind_equalAndIn_misses :
    ∃ idx₀ idx q' sc, siNewCompoundIndex (oneColumn .int32 0) = .ok idx₀ ∧
      run applyStep idx₀ [[add idA (.int32 1)]] = .ok idx ∧
      compoundIndexFind idx equalAndIn = .ok (q', { error := siCursorOk, ctx := some sc }) ∧
      ¬∃ ids, Drains idx sc ids ∧ ∀ id, id ∈ ids ↔
        ∃ k, idx.content id = some k ∧ Satisfies idx.cmpFuncs k equalAndIn.root := by
  refine ⟨_, _, _, _, rfl, rfl, rfl, ?_⟩
  rintro ⟨ids, hdrains, hexact⟩
  obtain rfl : ids = [] := hdrains.unique (.done rfl)
  have hmem : idA ∈ ([] : List SIId) := by
    refine (hexact idA).2 ⟨[.int32 1], rfl, ?_⟩
    refine Or.inr ⟨Or.inr ⟨by decide, siCmpInt, .int32 1, rfl, rfl, rfl⟩,
      Or.inr ⟨by decide, siCmpInt, .int32 1, rfl, rfl, ?_⟩⟩
    exact ⟨.int32 1, by simp, rfl⟩
  simp at hmem

end Secondary
