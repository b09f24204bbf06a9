import Secondary.Selected

/-!
# CursorSpec — the sequence of the ids that a cursor returns

Over an index that does not change, a cursor returns range after range, and for each range node
after node, the ids of the nodes that the plan selects there.  So an id comes more than once when
its tuple is in several ranges, which happens when an IN that is scanned lists its value twice.
-/

namespace Secondary

open Lib

/-! ## Selecting, computed -/

instance (fs : List SIKeyCmpFunc) (r : SIPlanRange) (k : SIMultiKey) :
    Decidable (NotBelow fs r k) :=
  match h : siCmpMultiKey fs k r.min with
  | .ok c => decidable_of_iff (0 < c ∨ (c = 0 ∧ r.minExclusive = false)) (by simp [NotBelow, h])
  | .error _ => isFalse (by simp [NotBelow, h])

instance (fs : List SIKeyCmpFunc) (r : SIPlanRange) (k : SIMultiKey) :
    Decidable (NotAbove fs r k) :=
  match h : siCmpMultiKey fs k r.max with
  | .ok c => decidable_of_iff (c < 0 ∨ (c = 0 ∧ r.maxExclusive = false)) (by simp [NotAbove, h])
  | .error _ => isFalse (by simp [NotAbove, h])

instance (fs : List SIKeyCmpFunc) (plan : SIQueryPlan) (k : SIMultiKey) :
    Decidable (PassesPlan fs plan k) :=
  match htree : plan.filterTree with
  | none => isTrue (by simp [PassesPlan, htree])
  | some t =>
      match heval : evalKey k fs t with
      | .ok b => decidable_of_iff (b = true) (by simp [PassesPlan, htree, heval])
      | .error _ => isFalse (by simp [PassesPlan, htree, heval])

/-- The plan selects the node in the range `r`. -/
def selectsNode (idx : CompoundIndex) (plan : SIQueryPlan) (r : SIPlanRange)
    (b : Bucket KeyRef SIId) : Bool :=
  match idx.keys.cell b.key with
  | none => false
  | some k => decide (NotBelow idx.cmpFuncs r k ∧ NotAbove idx.cmpFuncs r k ∧
      PassesPlan idx.cmpFuncs plan k)

/-! ## The sequence -/

section Sequence

variable {idx : CompoundIndex} {bs : List (Bucket KeyRef SIId)} {plan : SIQueryPlan}
  {r : SIPlanRange}

/-- The filter of `scan_next` and the iterator together select the nodes. -/
theorem selectsNode_eq (h : ListInv idx bs) (hplan : PlanOk idx.spec.types plan)
    (hr : r ∈ plan.ranges) {b : Bucket KeyRef SIId} (hb : b ∈ bs) :
    selectsNode idx plan r b = (passes idx plan b.tag && inScan idx r b.key) := by
  obtain ⟨k, hcell, hok⟩ := h.key_live hb
  have hrange := hplan.ranges r hr
  have hplaces : idx.places b.key = places k := by
    simp [CompoundIndex.places, refPlaces, hcell]
  have hpass : passes idx plan b.tag = true ↔ PassesPlan idx.cmpFuncs plan k := by
    rw [(passesFilter_spec h hplan hb).2, passesPlan_iff h.cmpFuncs hok hplan, hplaces]
  have hscan : inScan idx r b.key = true ↔
      NotBelow idx.cmpFuncs r k ∧ NotAbove idx.cmpFuncs r k := by
    rw [inScan_iff h (h.key_live hb) hrange, notBelow_iff h.cmpFuncs hok hrange,
      notAbove_iff h.cmpFuncs hok hrange, hplaces]
    rfl
  rw [Bool.eq_iff_iff, Bool.and_eq_true, hpass, hscan]
  simp only [selectsNode, hcell, decide_eq_true_eq]
  constructor
  · rintro ⟨hbelow, habove, hpass⟩
    exact ⟨hpass, hbelow, habove⟩
  · rintro ⟨hpass, hbelow, habove⟩
    exact ⟨hbelow, habove, hpass⟩

theorem rangeIds_eq (h : ListInv idx bs) (hplan : PlanOk idx.spec.types plan)
    (hr : r ∈ plan.ranges) :
    rangeIds idx plan bs r = Bucket.allVals (bs.filter (selectsNode idx plan r)) := by
  rw [rangeIds, passing, List.filter_filter]
  congr 1
  exact List.filter_congr fun b hb => (selectsNode_eq h hplan hr hb).symm

end Sequence

/-! ## Ids that come twice -/

/-- The predicate does not list values that are equal to `v` twice. -/
def ListedOnce (f : SIKeyCmpFunc) (v : SIValue) : SIPredicateType → Prop
  | .inList ws => AtMostOne (fun w => f v w = .ok 0) ws
  | _ => True

theorem listedOnce_iff {t : SIType} {f : SIKeyCmpFunc} {v : SIValue} {p : SIPredicateType}
    (hf : cmpFuncOf t = .ok f) (hv : ValueOk t v) (hp : p.Fits t) :
    ListedOnce f v p ↔ ListedOnceAt v.place p := by
  cases p with
  | inList ws => exact atMostOne_congr fun w hw => cmp_eq_zero_iff hf hv (hp w hw)
  | eq w => exact Iff.rfl
  | ne w => exact Iff.rfl
  | rng min max minExclusive maxExclusive => exact Iff.rfl
  | isNull w => exact Iff.rfl

section Twice

variable {idx : CompoundIndex} {bs : List (Bucket KeyRef SIId)} {plan : SIQueryPlan}

/-- No id comes twice when no selected tuple is in two ranges. -/
theorem planIds_nodup_iff (h : IndexInv idx bs) (hplan : PlanOk idx.spec.types plan) :
    (planIds idx plan bs).Nodup ↔ ∀ id k, idx.content id = some k →
      PassesPlan idx.cmpFuncs plan k →
        AtMostOne (fun r => NotBelow idx.cmpFuncs r k ∧ NotAbove idx.cmpFuncs r k) plan.ranges := by
  -- The scan of one range is a part of the nodes, which hold no id twice.
  have hone : ∀ r ∈ plan.ranges, (rangeIds idx plan bs r).Nodup := by
    intro r _
    have hsub : (rangeIds idx plan bs r).Sublist (Bucket.allVals bs) := by
      rw [rangeIds, passing, List.filter_filter]
      exact List.filter_sublist.flatMap Bucket.vals
    exact hsub.nodup h.nodup
  have hmem : ∀ r ∈ plan.ranges, ∀ id, id ∈ rangeIds idx plan bs r ↔
      ∃ k, idx.content id = some k ∧ PassesPlan idx.cmpFuncs plan k ∧
        NotBelow idx.cmpFuncs r k ∧ NotAbove idx.cmpFuncs r k :=
    fun r hr _ => mem_rangeIds h hplan hr
  rw [planIds, List.nodup_flatMap]
  constructor
  · rintro ⟨_, hdisjoint⟩ id k hk hpass
    refine List.Pairwise.imp_of_mem ?_ hdisjoint
    rintro r r' hr hr' hno ⟨hin, hin'⟩
    exact hno ((hmem r hr id).2 ⟨k, hk, hpass, hin⟩) ((hmem r' hr' id).2 ⟨k, hk, hpass, hin'⟩)
  · intro honce
    refine ⟨hone, List.pairwise_iff_forall_sublist.2 fun {r r'} hpair => ?_⟩
    have hr : r ∈ plan.ranges := hpair.subset (by simp)
    have hr' : r' ∈ plan.ranges := hpair.subset (by simp)
    intro id hid hid'
    obtain ⟨k, hk, hpass, hin⟩ := (hmem r hr id).1 hid
    obtain ⟨k', hk', _, hin'⟩ := (hmem r' hr' id).1 hid'
    obtain rfl : k = k' := Option.some.inj (hk.symm.trans hk')
    exact List.pairwise_iff_forall_sublist.1 (honce id k hk hpass) hpair ⟨hin, hin'⟩

/-- A tuple that the scanned predicates hold of is in one range only when no list has its value
twice. -/
theorem atMostOne_ranges_iff {q q' : SIQuery} {spec : SISpec} {fs : List SIKeyCmpFunc}
    (hfs : CmpFuncsOf spec.types fs) (hq : Plannable spec.types q.root)
    (h : siBuildQueryPlan q spec = .ok (q', some plan)) {k : SIMultiKey}
    (hk : KeyOk spec.types k)
    (hmeets : ∀ p ∈ scanned spec.types.length q.root, AtColumn PredHolds fs k p) :
    AtMostOne (fun r => NotBelow fs r k ∧ NotAbove fs r k) plan.ranges ↔
      ∀ p ∈ scanned spec.types.length q.root, AtColumn ListedOnce fs k p := by
  obtain ⟨hlast, hcols, hlen, _, hleaves⟩ := splitScan_spec spec.types.length 0 (conjuncts q.root)
  have hok := (hleaves _ (leaves_conjuncts hq.typed)).1
  have hne := (hleaves _ (leaves_conjuncts hq.noNotEquals)).1
  have hplan := siBuildQueryPlan_spec hq h
  have hcolumn := fun p hp => atColumn_iff (p := p)
    (fun _ _ _ _ hf hv hp => predHolds_iff hf hv hp) hfs hk (hok p hp)
  have honce := fun p hp => atColumn_iff (p := p)
    (fun _ _ _ _ hf hv hp => listedOnce_iff hf hv hp) hfs hk (hok p hp)
  have hrange : ∀ r ∈ plan.ranges, (NotBelow fs r k ∧ NotAbove fs r k ↔
      r.interval.Holds ((places k).take r.min.length)) := by
    intro r hr
    rw [notBelow_iff hfs hk (hplan.bounds r hr), notAbove_iff hfs hk (hplan.bounds r hr)]
    rfl
  rw [atMostOne_congr hrange, (siBuildQueryPlan_for hq.typed hq.noNotEquals hq.unmarked h).ranges]
  have hplaces : (scanned spec.types.length q.root).length ≤ (places k).length := by
    simpa [scanned, hk.length_eq] using hlen
  rw [scanned, atMostOne_inRanges hlast hcols hok hne hplaces fun p hp =>
    (hcolumn p hp).1 (hmeets p hp)]
  exact forall_congr' fun p => forall_congr' fun hp => (honce p hp).symm

end Twice

/-- Where no key was shared when it was dropped, a cursor returns no id twice if and only if, for
every tuple that it selects, no IN that is scanned lists the tuple's value twice. -/
theorem cursor_nodup_iff {spec : SISpec} {idx₀ idx : CompoundIndex}
    (hnew : siNewCompoundIndex spec = .ok idx₀) (css : List (List (SIChange × Level)))
    (htyped : ∀ cs ∈ css, Typed spec cs)
    (hkeys : spec.isUnique = true ∨ Every applyStep KeysNotShared idx₀ css)
    (hrun : run applyStep idx₀ css = .ok idx) {q q' : SIQuery} {plan : SIQueryPlan}
    (hq : Plannable spec.types q.root) (hplan : siBuildQueryPlan q spec = .ok (q', some plan)) :
    ∃ sc ids, compoundIndexFind idx q = .ok (q', { error := siCursorOk, ctx := some sc }) ∧
      Drains idx sc ids ∧
      (ids.Nodup ↔ ∀ id k, idx.content id = some k →
        (∀ p ∈ scanned spec.numProps q.root, AtColumn PredHolds idx.cmpFuncs k p) →
        (∀ a ∈ filtered spec.numProps q.root, PassesFilter idx.cmpFuncs k a) →
        ∀ p ∈ scanned spec.numProps q.root, AtColumn ListedOnce idx.cmpFuncs k p) := by
  obtain ⟨idx', hrun', ⟨rfl, bs, h⟩, _, _⟩ := (stands_new hnew).run htyped hkeys
  obtain rfl : idx = idx' := Except.ok.inj (hrun.symm.trans hrun')
  have hprops : idx.spec.numProps = idx.spec.types.length := by simp [SISpec.numProps, SISpec.types]
  have hof := siBuildQueryPlan_spec hq hplan
  obtain ⟨sc, pending, hfind, hscplan, hat, hids⟩ := compoundIndexFind_spec h.list hplan hof.planOk
  refine ⟨sc, _, hfind, drains_toReturn h.list (by rw [hscplan]; exact hof.planOk) hat hids, ?_⟩
  -- What is returned twice is decided id by id: by how many ranges hold its tuple.
  rw [planIds_nodup_iff h hof.planOk, hprops]
  refine forall_congr' fun id => forall_congr' fun k => forall_congr' fun hk => ?_
  obtain ⟨b, hb, hid⟩ := h.exists_bucket hk
  have hselects := selects_iff h hof hq hb hid hk
  have hpasses := passes_iff h hof.planOk hb hid hk
  constructor
  · intro honce hscan hfilter
    -- A selected tuple lies in one range only where each column lists it once.
    have hpass := hpasses.1 (hselects.2 ⟨hscan, hfilter⟩).1
    exact (atMostOne_ranges_iff h.cmpFuncs hq hplan (h.content_ok hk) hscan).1 (honce hpass)
  · intro honce hpass
    by_cases hin : ∃ r ∈ plan.ranges, inScan idx r b.key = true
    · obtain ⟨hscan, hfilter⟩ := hselects.1 ⟨hpasses.2 hpass, hin⟩
      exact (atMostOne_ranges_iff h.cmpFuncs hq hplan (h.content_ok hk) hscan).2
        (honce hscan hfilter)
    · -- A tuple in no range at all.
      refine List.pairwise_iff_forall_sublist.2 fun {r r'} hpair => ?_
      rintro ⟨hr, _⟩
      have hmem : r ∈ plan.ranges := hpair.subset (by simp)
      exact hin ⟨r, hmem, (inScan_iff_tuple h (hof.bounds r hmem) hb hid hk).2 hr⟩

/-- `$1 IN (1, 1)` -/
def oneTwice : SIQuery where
  root := siPredIn 0 [.int32 1, .int32 1]
  numPredicates := 1

/-- `$1 IN (1, 2)`, as a query. -/
def oneOrTwoQuery : SIQuery where
  root := siPredIn 0 [.int32 1, .int32 2]
  numPredicates := 1

theorem plannable_siPredIn {ws : List SIValue} (hws : ∀ w ∈ ws, w.type = .int32 ∧ w.NotNaN) :
    Plannable [.int32] (siPredIn 0 ws) where
  typed := ⟨Int.le_refl 0, .int32, rfl, fun w hw => Or.inl (Or.inr (hws w hw))⟩
  noNotEquals := rfl
  unmarked := rfl

/-- A list without repetition. -/
theorem cursor_nodup_iff_int :
    ∃ idx₀ idx q' plan, siNewCompoundIndex (oneColumn .int32 0) = .ok idx₀ ∧
      run applyStep idx₀ [[add idA (.int32 1), add idB (.int32 2)]] = .ok idx ∧
      siBuildQueryPlan oneOrTwoQuery (oneColumn .int32 0) = .ok (q', some plan) ∧
      ∃ sc ids, compoundIndexFind idx oneOrTwoQuery =
          .ok (q', { error := siCursorOk, ctx := some sc }) ∧
        Drains idx sc ids ∧
        (ids.Nodup ↔ ∀ id k, idx.content id = some k →
          (∀ p ∈ scanned (oneColumn .int32 0).numProps oneOrTwoQuery.root,
            AtColumn PredHolds idx.cmpFuncs k p) →
          (∀ a ∈ filtered (oneColumn .int32 0).numProps oneOrTwoQuery.root,
            PassesFilter idx.cmpFuncs k a) →
          ∀ p ∈ scanned (oneColumn .int32 0).numProps oneOrTwoQuery.root,
            AtColumn ListedOnce idx.cmpFuncs k p) :=
  ⟨_, _, _, _, rfl, rfl, rfl,
    cursor_nodup_iff rfl [[add idA (.int32 1), add idB (.int32 2)]] (by decide)
      (Or.inr (by decide +kernel)) rfl (plannable_siPredIn (by decide)) rfl⟩

/-- A value that is listed twice: its id comes twice. -/
theorem cursor_oneTwice_repeats :
    ∃ idx₀ idx q' sc, siNewCompoundIndex (oneColumn .int32 0) = .ok idx₀ ∧
      run applyStep idx₀ [[add idA (.int32 1)]] = .ok idx ∧
      compoundIndexFind idx oneTwice = .ok (q', { error := siCursorOk, ctx := some sc }) ∧
      Drains idx sc [idA, idA] ∧ ¬[idA, idA].Nodup :=
  ⟨_, _, _, _, rfl, rfl, rfl, .next rfl (.next rfl (.done rfl)), by decide⟩

end Secondary
