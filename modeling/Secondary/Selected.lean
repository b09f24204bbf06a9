import Secondary.QueryExact

/-!
# Selected — what is still to be scanned, told by tuples

A plan selects a tuple that its filter lets pass and that is in one of its ranges.  A cursor at the
first value of a node has still to return the ids of the selected tuples of the current range that
are not before the tuple of this node, and of those of the later ranges; so what it returns follows
from the tuples that the index holds, whichever nodes they are in.
-/

namespace Secondary

open Lib

/-! ## Tuples against a plan -/

/-- `k` is not before the range. -/
def NotBelow (fs : List SIKeyCmpFunc) (r : SIPlanRange) (k : SIMultiKey) : Prop :=
  ∃ c, siCmpMultiKey fs k r.min = .ok c ∧ (0 < c ∨ (c = 0 ∧ r.minExclusive = false))

/-- `k` is not past the range. -/
def NotAbove (fs : List SIKeyCmpFunc) (r : SIPlanRange) (k : SIMultiKey) : Prop :=
  ∃ c, siCmpMultiKey fs k r.max = .ok c ∧ (c < 0 ∨ (c = 0 ∧ r.maxExclusive = false))

/-- `k` is in the range. -/
def InRange (fs : List SIKeyCmpFunc) (r : SIPlanRange) (k : SIMultiKey) : Prop :=
  NotBelow fs r k ∧ NotAbove fs r k

/-- The filter of the plan lets `k` pass. -/
def PassesPlan (fs : List SIKeyCmpFunc) (plan : SIQueryPlan) (k : SIMultiKey) : Prop :=
  ∀ t ∈ plan.filterTree, evalKey k fs t = .ok true

/-- The plan selects `k`. -/
def Selects (fs : List SIKeyCmpFunc) (plan : SIQueryPlan) (k : SIMultiKey) : Prop :=
  PassesPlan fs plan k ∧ ∃ r ∈ plan.ranges, NotBelow fs r k ∧ NotAbove fs r k

section Tuples

variable {types : List SIType} {fs : List SIKeyCmpFunc} {k k' : SIMultiKey} {r : SIPlanRange}

theorem notBelow_iff (hfs : CmpFuncsOf types fs) (hk : KeyOk types k) (hr : RangeOk types r) :
    NotBelow fs r k ↔ ¬r.interval.Below ((places k).take r.min.length) := by
  obtain ⟨c, hc, hsigns⟩ := siCmpMultiKey_signs hfs hk hr.1
  have hbelow : r.interval.Below ((places k).take r.min.length) ↔
      c < 0 ∨ (c = 0 ∧ r.minExclusive = true) := by
    rw [hsigns.1, hsigns.2]
    rfl
  rw [hbelow]
  cases hopen : r.minExclusive <;> simp [NotBelow, hc, hopen] <;> omega

theorem notAbove_iff (hfs : CmpFuncsOf types fs) (hk : KeyOk types k) (hr : RangeOk types r) :
    NotAbove fs r k ↔ ¬r.interval.Above ((places k).take r.min.length) := by
  obtain ⟨c, hc, hsigns⟩ := siCmpMultiKey_signs hfs hk hr.2.1
  have habove : r.interval.Above ((places k).take r.min.length) ↔
      0 < c ∨ (c = 0 ∧ r.maxExclusive = true) := by
    rw [hr.2.2, hsigns.pos_iff, hsigns.2]
    rfl
  rw [habove]
  cases hopen : r.maxExclusive <;> simp [NotAbove, hc, hopen] <;> omega

theorem NotBelow.mono (hfs : CmpFuncsOf types fs) (hk : KeyOk types k) (hk' : KeyOk types k')
    (hr : RangeOk types r) (hle : places k ≤ places k') (h : NotBelow fs r k) :
    NotBelow fs r k' := by
  rw [notBelow_iff hfs hk hr] at h
  rw [notBelow_iff hfs hk' hr]
  exact fun hbelow => h (hbelow.mono (LexInterval.take_le_take _ hle))

theorem NotAbove.mono (hfs : CmpFuncsOf types fs) (hk : KeyOk types k) (hk' : KeyOk types k')
    (hr : RangeOk types r) (hle : places k ≤ places k') (h : NotAbove fs r k') :
    NotAbove fs r k := by
  rw [notAbove_iff hfs hk' hr] at h
  rw [notAbove_iff hfs hk hr]
  exact fun habove => h (habove.mono (LexInterval.take_le_take _ hle))

/-- Tuples with the same places are in the same ranges. -/
theorem InRange.congr (hfs : CmpFuncsOf types fs) (hk : KeyOk types k) (hk' : KeyOk types k')
    (hr : RangeOk types r) (hsame : places k = places k') (h : InRange fs r k) : InRange fs r k' :=
  ⟨h.1.mono hfs hk hk' hr hsame.le, h.2.mono hfs hk' hk hr hsame.ge⟩

theorem passesPlan_iff (hfs : CmpFuncsOf types fs) (hk : KeyOk types k) {plan : SIQueryPlan}
    (hplan : PlanOk types plan) : PassesPlan fs plan k ↔ FilterSays plan (places k) := by
  refine forall_congr' fun t => forall_congr' fun ht => ?_
  obtain ⟨p, hp, hiff⟩ := evalKey_spec hfs hk (hplan.filter t ht)
  rw [← passesFilter_iff hfs hk (hplan.filter t ht), ← hiff, hp, Except.ok.injEq]

theorem PassesPlan.congr (hfs : CmpFuncsOf types fs) (hk : KeyOk types k) (hk' : KeyOk types k')
    {plan : SIQueryPlan} (hplan : PlanOk types plan) (hsame : places k = places k')
    (h : PassesPlan fs plan k) : PassesPlan fs plan k' := by
  rw [passesPlan_iff hfs hk hplan, hsame] at h
  rwa [passesPlan_iff hfs hk' hplan]

end Tuples

/-! ## Nodes -/

section Nodes

variable {idx : CompoundIndex} {bs : List (Bucket KeyRef SIId)} {b : Bucket KeyRef SIId}
  {id : SIId} {k : SIMultiKey} {plan : SIQueryPlan} {r : SIPlanRange}

theorem passes_iff (h : IndexInv idx bs) (hplan : PlanOk idx.spec.types plan) (hb : b ∈ bs)
    (hid : id ∈ b.vals) (hk : idx.content id = some k) :
    passes idx plan b.tag = true ↔ PassesPlan idx.cmpFuncs plan k := by
  rw [(passesFilter_spec h.list hplan hb).2, passesPlan_iff h.cmpFuncs (h.content_ok hk) hplan,
    places_key h hb hid hk]

theorem aboveRange_eq_false (h : IndexInv idx bs) (hr : RangeOk idx.spec.types r) (hb : b ∈ bs)
    (hid : id ∈ b.vals) (hk : idx.content id = some k) :
    aboveRange idx r b.key = false ↔ NotAbove idx.cmpFuncs r k := by
  rw [notAbove_iff h.cmpFuncs (h.content_ok hk) hr, ← Bool.not_eq_true,
    aboveRange_iff h.list (h.key_live hb) hr, places_key h hb hid hk]

theorem inScan_iff_tuple (h : IndexInv idx bs) (hr : RangeOk idx.spec.types r) (hb : b ∈ bs)
    (hid : id ∈ b.vals) (hk : idx.content id = some k) :
    inScan idx r b.key = true ↔ NotBelow idx.cmpFuncs r k ∧ NotAbove idx.cmpFuncs r k := by
  have hok := h.content_ok hk
  rw [inScan_iff h.list (h.key_live hb) hr, notBelow_iff h.cmpFuncs hok hr,
    notAbove_iff h.cmpFuncs hok hr, places_key h hb hid hk]
  rfl

/-- Nodes that come later have greater tuples. -/
theorem places_lt (h : IndexInv idx bs) :
    bs.Pairwise fun a b => idx.places a.key < idx.places b.key :=
  h.sorted.imp_of_mem fun ha hb hab =>
    (compareKeys_signs h.cmpFuncs (h.key_live ha) (h.key_live hb)).2.1.1 hab

/-- The ids that a scan of one range returns. -/
theorem mem_rangeIds (h : IndexInv idx bs) (hplan : PlanOk idx.spec.types plan)
    (hr : r ∈ plan.ranges) :
    id ∈ rangeIds idx plan bs r ↔ ∃ k, idx.content id = some k ∧
      PassesPlan idx.cmpFuncs plan k ∧ NotBelow idx.cmpFuncs r k ∧ NotAbove idx.cmpFuncs r k := by
  simp only [rangeIds, passing, Bucket.mem_allVals, List.mem_filter]
  constructor
  · rintro ⟨b, ⟨⟨hb, hscan⟩, hpass⟩, hid⟩
    obtain ⟨k, hk⟩ := h.exists_content.1 ((h.mem id).1 (Bucket.mem_allVals.2 ⟨b, hb, hid⟩))
    exact ⟨k, hk, (passes_iff h hplan hb hid hk).1 hpass,
      (inScan_iff_tuple h (hplan.ranges r hr) hb hid hk).1 hscan⟩
  · rintro ⟨k, hk, hpass, hscan⟩
    obtain ⟨b, hb, hid⟩ := h.exists_bucket hk
    exact ⟨b, ⟨⟨hb, (inScan_iff_tuple h (hplan.ranges r hr) hb hid hk).2 hscan⟩,
      (passes_iff h hplan hb hid hk).2 hpass⟩, hid⟩

/-- The ids that a plan selects. -/
theorem mem_planIds_selects (h : IndexInv idx bs) (hplan : PlanOk idx.spec.types plan) :
    id ∈ planIds idx plan bs ↔ ∃ k, idx.content id = some k ∧ Selects idx.cmpFuncs plan k := by
  rw [planIds, List.mem_flatMap]
  constructor
  · rintro ⟨r, hr, hid⟩
    obtain ⟨k, hk, hpass, hscan⟩ := (mem_rangeIds h hplan hr).1 hid
    exact ⟨k, hk, hpass, r, hr, hscan⟩
  · rintro ⟨k, hk, hpass, r, hr, hscan⟩
    exact ⟨r, hr, (mem_rangeIds h hplan hr).2 ⟨k, hk, hpass, hscan⟩⟩

end Nodes

/-! ## Cursors -/

/-- The tuple that a node uses as its key. -/
def nodeKey (idx : CompoundIndex) (x : Nat) : Option SIMultiKey :=
  (idx.sl.nodes.objAt? x).bind idx.keys.cell

/-- `k` is in the rest of the current range: not before the node that the cursor stands at. -/
def AheadInRange (idx : CompoundIndex) (sc : CiScanCtx) (k : SIMultiKey) : Prop :=
  ∃ r it x kc, sc.currentRange = some r ∧ sc.it = some it ∧ it.current = some x ∧
    nodeKey idx x = some kc ∧ CompareLe idx.cmpFuncs kc k ∧ NotAbove idx.cmpFuncs r k

/-- The cursor has still to scan a node with the tuple `k`, and the filter lets it pass. -/
def StillToScan (idx : CompoundIndex) (sc : CiScanCtx) (k : SIMultiKey) : Prop :=
  PassesPlan idx.cmpFuncs sc.plan k ∧
    (AheadInRange idx sc k ∨ ∃ r ∈ sc.plan.ranges.drop (sc.currentScanRange + 1),
      NotBelow idx.cmpFuncs r k ∧ NotAbove idx.cmpFuncs r k)

/-- The iterator stands at the first value of a node. -/
def AtFirstValue (sc : CiScanCtx) : Prop :=
  ∀ it ∈ sc.it, it.currentValOffset = 0

section Cursors

variable {idx : CompoundIndex} {bs pending : List (Bucket KeyRef SIId)} {sc : CiScanCtx}
  {id : SIId} {r : SIPlanRange}

/-- The ids of the node that the iterator is at, and of the later ones within the range, where the
filter passes them. -/
theorem mem_passing_at (h : IndexInv idx bs) (hplan : PlanOk idx.spec.types sc.plan)
    (hr : sc.currentRange = some r) {as cs : List (Bucket KeyRef SIId)} {b : Bucket KeyRef SIId}
    (split : bs = as ++ b :: cs) (within : aboveRange idx r b.key = false) :
    id ∈ passing idx sc.plan (b :: cs.takeWhile fun d => !aboveRange idx r d.key) ↔
      ∃ d ∈ b :: cs, aboveRange idx r d.key = false ∧ passes idx sc.plan d.tag = true ∧
        id ∈ d.vals := by
  have hsub : cs.Sublist bs :=
    split ▸ (List.sublist_cons_self b cs).trans (List.sublist_append_right as _)
  have hcut : Cut (fun d : Bucket KeyRef SIId => !aboveRange idx r d.key) cs :=
    (cut_aboveRange h.list (hplan.ranges r (List.mem_of_getElem? hr))).sublist hsub
  rw [hcut.takeWhile_eq_filter]
  simp only [passing, Bucket.mem_allVals, List.mem_filter, List.mem_cons, Bool.not_eq_true']
  constructor
  · rintro ⟨d, ⟨rfl | ⟨hd, habove⟩, hpass⟩, hid⟩
    · exact ⟨_, Or.inl rfl, within, hpass, hid⟩
    · exact ⟨d, Or.inr hd, habove, hpass, hid⟩
  · rintro ⟨d, rfl | hd, habove, hpass, hid⟩
    · exact ⟨d, ⟨Or.inl rfl, hpass⟩, hid⟩
    · exact ⟨d, ⟨Or.inr ⟨hd, habove⟩, hpass⟩, hid⟩

/-- A tuple is ahead where it is not before the first node that is left, and not past the range. -/
theorem aheadInRange_iff (h : IndexInv idx bs) (hr : sc.currentRange = some r)
    (hat : ScanAt idx bs sc pending) {k : SIMultiKey} (hk : KeyOk idx.spec.types k) :
    AheadInRange idx sc k ↔
      (∃ d ∈ pending.head?, idx.places d.key ≤ places k) ∧ NotAbove idx.cmpFuncs r k := by
  simp only [ScanAt, hr] at hat
  obtain ⟨it, hsc, _, _, hit⟩ := hat
  simp only [AheadInRange, hr, hsc, Option.some.injEq, exists_and_left, exists_eq_left']
  cases hit with
  | done current => simp [current]
  | «at» as b cs split current offset within =>
      have hb : b ∈ bs := by simp [split]
      obtain ⟨kc, hcell, hkc⟩ := h.key_live hb
      have hnode : nodeKey idx b.tag = some kc := by
        simp [nodeKey, h.rep.obj b hb, hcell]
      have hplaces : idx.places b.key = places kc := by
        simp [CompoundIndex.places, refPlaces, hcell]
      constructor
      · rintro ⟨x, hx, kc', hkc', hle, habove⟩
        obtain rfl : b.tag = x := Option.some.inj (current.symm.trans hx)
        obtain rfl : kc = kc' := Option.some.inj (hnode.symm.trans hkc')
        rw [compareLe_iff h.cmpFuncs hkc hk] at hle
        exact ⟨⟨_, rfl, hplaces.trans_le hle⟩, habove⟩
      · rintro ⟨⟨d, hd, hle⟩, habove⟩
        obtain rfl := Option.some.inj hd
        refine ⟨b.tag, current, kc, hnode, ?_, habove⟩
        rw [compareLe_iff h.cmpFuncs hkc hk, ← hplaces]
        exact hle

/-- The ids that are left of the current range. -/
theorem mem_passing_pending (h : IndexInv idx bs) (hplan : PlanOk idx.spec.types sc.plan)
    (hr : sc.currentRange = some r) (hat : ScanAt idx bs sc pending) (hfirst : AtFirstValue sc) :
    id ∈ passing idx sc.plan pending ↔ ∃ k, idx.content id = some k ∧
      PassesPlan idx.cmpFuncs sc.plan k ∧ AheadInRange idx sc k := by
  have hrange := hplan.ranges r (List.mem_of_getElem? hr)
  have hahead := fun k hk => aheadInRange_iff (k := k) h hr hat hk
  simp only [ScanAt, hr] at hat
  obtain ⟨it, hsc, _, _, hit⟩ := hat
  cases hit with
  | done current =>
      simp only [passing, List.filter_nil, Bucket.allVals_nil, List.not_mem_nil, false_iff]
      rintro ⟨k, hk, _, hin⟩
      simpa using ((hahead k (h.content_ok hk)).1 hin).1
  | «at» as b cs split current offset within =>
      subst split
      have hsorted := List.pairwise_append.1 (places_lt h)
      rw [hfirst it hsc, List.drop_zero, mem_passing_at h hplan hr rfl within]
      constructor
      · rintro ⟨d, hd, habove, hpass, hid⟩
        have hdbs : d ∈ as ++ b :: cs := List.mem_append_right _ hd
        obtain ⟨k, hk⟩ := h.exists_content.1 ((h.mem id).1 (Bucket.mem_allVals.2 ⟨d, hdbs, hid⟩))
        refine ⟨k, hk, (passes_iff h hplan hdbs hid hk).1 hpass,
          (hahead k (h.content_ok hk)).2 ⟨⟨_, rfl, ?_⟩,
            (aboveRange_eq_false h hrange hdbs hid hk).1 habove⟩⟩
        rw [← places_key h hdbs hid hk]
        rcases List.mem_cons.1 hd with rfl | hd
        · exact le_rfl
        · exact le_of_lt ((List.pairwise_cons.1 hsorted.2.1).1 d hd)
      · rintro ⟨k, hk, hpass, hin⟩
        obtain ⟨⟨e, he, hle⟩, habove⟩ := (hahead k (h.content_ok hk)).1 hin
        obtain rfl := Option.some.inj he
        obtain ⟨d, hdbs, hid⟩ := h.exists_bucket hk
        refine ⟨d, ?_, (aboveRange_eq_false h hrange hdbs hid hk).2 habove,
          (passes_iff h hplan hdbs hid hk).2 hpass, hid⟩
        rw [← places_key h hdbs hid hk] at hle
        -- The nodes before the iterator's have keys below its.
        rcases List.mem_append.1 hdbs with hd | hd
        · exact absurd (hsorted.2.2 d hd b (by simp)) (not_lt_of_ge hle)
        · exact hd

/-- The ids that a cursor has still to return. -/
theorem mem_toReturn (h : IndexInv idx bs) (hplan : PlanOk idx.spec.types sc.plan)
    (hat : ScanAt idx bs sc pending) (hfirst : AtFirstValue sc) (id : SIId) :
    id ∈ toReturn idx bs sc pending ↔ ∃ k, idx.content id = some k ∧ StillToScan idx sc k := by
  -- The ranges behind the current one are scanned whole.
  have hlater : id ∈ (sc.plan.ranges.drop (sc.currentScanRange + 1)).flatMap
        (rangeIds idx sc.plan bs) ↔
      ∃ k, idx.content id = some k ∧ PassesPlan idx.cmpFuncs sc.plan k ∧
        ∃ r ∈ sc.plan.ranges.drop (sc.currentScanRange + 1),
          NotBelow idx.cmpFuncs r k ∧ NotAbove idx.cmpFuncs r k := by
    rw [List.mem_flatMap]
    constructor
    · rintro ⟨r, hr, hid⟩
      obtain ⟨k, hk, hpass, hscan⟩ := (mem_rangeIds h hplan (List.mem_of_mem_drop hr)).1 hid
      exact ⟨k, hk, hpass, r, hr, hscan⟩
    · rintro ⟨k, hk, hpass, r, hr, hscan⟩
      exact ⟨r, hr, (mem_rangeIds h hplan (List.mem_of_mem_drop hr)).2 ⟨k, hk, hpass, hscan⟩⟩
  -- Of the current range, what the iterator has not passed.
  have hpending : id ∈ passing idx sc.plan pending ↔ ∃ k, idx.content id = some k ∧
      PassesPlan idx.cmpFuncs sc.plan k ∧ AheadInRange idx sc k := by
    cases hr : sc.currentRange with
    | none =>
        obtain rfl : pending = [] := by simpa [ScanAt, hr] using hat
        simp [passing, AheadInRange, hr]
    | some r => exact mem_passing_pending h hplan hr hat hfirst
  rw [toReturn, List.mem_append, hpending, hlater]
  constructor
  · rintro (⟨k, hk, hpass, hahead⟩ | ⟨k, hk, hpass, hscan⟩)
    · exact ⟨k, hk, hpass, Or.inl hahead⟩
    · exact ⟨k, hk, hpass, Or.inr hscan⟩
  · rintro ⟨k, hk, hpass, hahead | hscan⟩
    · exact Or.inl ⟨k, hk, hpass, hahead⟩
    · exact Or.inr ⟨k, hk, hpass, hscan⟩

end Cursors

end Secondary
