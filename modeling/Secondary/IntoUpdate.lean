import Secondary.IntoSpec
import Secondary.ScanPlace

/-!
# IntoUpdate — when a loop of updates returns every id once

An update takes the tuple of an id to another place, which the cursor may have still to scan: then
the id is returned again.  `ScannedAgain` tells this of a selected tuple from the tuples that the
index holds when the loop starts.  The loop is as it should be exactly when every selected id has
its tuple alone and no selected tuple is scanned again.
-/

namespace Secondary

open Lib

/-! ## Tuples that are scanned again -/

/-- The loop returns `k` before `k'`: `k` is in a range before all those of `k'`, or it is before
`k'` in the first one of these. -/
def Earlier (fs : List SIKeyCmpFunc) (plan : SIQueryPlan) (k k' : SIMultiKey) : Prop :=
  ∃ i r, plan.ranges[i]? = some r ∧ InRange fs r k ∧
    ∀ (j : Nat) r', plan.ranges[j]? = some r' → InRange fs r' k' →
      i < j ∨ (i = j ∧ CompareLt fs k k')

/-- The loop has updated `y` when it returns `k`. -/
def UpdatedBefore (start : CompoundIndex) (plan : SIQueryPlan) (ky k : SIMultiKey) : Prop :=
  Selects start.cmpFuncs plan ky ∧ Earlier start.cmpFuncs plan ky k

/-- The tuple of `y` when the loop returns `k`. -/
def TupleAt (start : CompoundIndex) (plan : SIQueryPlan) (update : SIMultiKey → SIMultiKey)
    (k : SIMultiKey) (y : SIId) (c : SIMultiKey) : Prop :=
  ∃ ky, start.content y = some ky ∧
    ((UpdatedBefore start plan ky k ∧ c = update ky) ∨ (¬UpdatedBefore start plan ky k ∧ c = ky))

/-- The filter lets the updated tuple pass, and it is in a later range than `k`, or further on in
the same one with a tuple between the two: the next one, which the cursor stands at when the loop
updates `k`. -/
def ScannedAgain (start : CompoundIndex) (plan : SIQueryPlan) (update : SIMultiKey → SIMultiKey)
    (k : SIMultiKey) : Prop :=
  PassesPlan start.cmpFuncs plan (update k) ∧
    ∃ i r, plan.ranges[i]? = some r ∧ InRange start.cmpFuncs r k ∧
      ((NotAbove start.cmpFuncs r (update k) ∧ ∃ y c, TupleAt start plan update k y c ∧
          CompareLt start.cmpFuncs k c ∧ CompareLe start.cmpFuncs c (update k)) ∨
        ∃ (j : Nat) (r' : SIPlanRange), i < j ∧ plan.ranges[j]? = some r' ∧
          InRange start.cmpFuncs r' (update k))

/-! ## Between two rounds -/

/-- What a loop of updates starts with. -/
structure UpdateLoop (start : CompoundIndex) (plan : SIQueryPlan)
    (update : SIMultiKey → SIMultiKey) : Prop where
  cmpFuncs : CmpFuncsOf start.spec.types start.cmpFuncs
  multi : start.spec.isUnique = false
  planOk : PlanOk start.spec.types plan
  typed : ∀ id k, start.content id = some k → KeyOk start.spec.types k
  update : ∀ k, KeyOk start.spec.types k → KeyOk start.spec.types (update k)
  alone : ∀ id k, start.content id = some k → Selects start.cmpFuncs plan k → start.Alone id k

/-- A selected tuple that has been returned when the loop has come to the place `pos`: a range and a
tuple of it. -/
def Met (start : CompoundIndex) (plan : SIQueryPlan) (pos : Option (Nat × SIMultiKey))
    (k : SIMultiKey) : Prop :=
  PassesPlan start.cmpFuncs plan k ∧ ∃ p ∈ pos, ∃ i r, plan.ranges[i]? = some r ∧
    InRange start.cmpFuncs r k ∧ (i < p.1 ∨ (i = p.1 ∧ places k ≤ places p.2))

/-- Between two rounds: the tuples up to the place `pos` have been returned and updated, and are not
scanned again; the others are as they were, and are still to be scanned wherever they occur. -/
structure Underway (start : CompoundIndex) (plan : SIQueryPlan) (update : SIMultiKey → SIMultiKey)
    (pos : Option (Nat × SIMultiKey)) (idx : CompoundIndex) (sc : CiScanCtx) : Prop where
  same : SameSpec start idx
  onPlan : sc.plan = plan
  inside : AheadInside idx sc
  behind : ∀ p ∈ pos, ∀ j c, KeyOk start.spec.types c → OccursAt idx sc j c →
    p.1 < j ∨ (p.1 = j ∧ places p.2 < places c)
  absent : ∀ y, start.content y = none → idx.content y = none
  met : ∀ y ky, start.content y = some ky → Met start plan pos ky →
    idx.content y = some (update ky) ∧ ¬StillToScan idx sc (update ky)
  unmet : ∀ y ky, start.content y = some ky → ¬Met start plan pos ky → idx.content y = some ky
  occurs : ∀ y ky, start.content y = some ky → ¬Met start plan pos ky →
    PassesPlan start.cmpFuncs plan ky → ∀ i r, plan.ranges[i]? = some r →
      InRange start.cmpFuncs r ky → OccursAt idx sc i ky

section Round

variable {start idx idx' : CompoundIndex} {plan : SIQueryPlan} {update : SIMultiKey → SIMultiKey}
  {pos : Option (Nat × SIMultiKey)} {bs bs' pending : List (Bucket KeyRef SIId)}
  {sc sc' : CiScanCtx} {id : SIId} {k c : SIMultiKey} {r : SIPlanRange}

theorem Underway.keyOk (u : Underway start plan update pos idx sc) (h : CursorAt idx bs sc pending)
    {y : SIId} (hc : idx.content y = some c) : KeyOk start.spec.types c := by
  rw [← u.same.spec]
  exact h.inv.content_ok hc

theorem Underway.occursAt (u : Underway start plan update pos idx sc)
    (hc : KeyOk start.spec.types c) {j : Nat} (h : OccursAt idx sc j c) :
    PassesPlan start.cmpFuncs plan c ∧
      ∃ r, plan.ranges[j]? = some r ∧ InRange start.cmpFuncs r c := by
  rw [← u.same.spec] at hc
  rw [← u.same.cmpFuncs, ← u.onPlan]
  exact ⟨h.1, h.inRange u.inside hc⟩

/-- What `Next` returns is the first of the selected tuples that are not met yet, and the id has it
alone. -/
theorem Underway.returned (l : UpdateLoop start plan update)
    (u : Underway start plan update pos idx sc) (h : CursorAt idx bs sc pending)
    (hk : idx.content id = some k) (hscan : StillToScan idx sc k) :
    start.content id = some k ∧ Selects start.cmpFuncs plan k ∧ ¬Met start plan pos k ∧
      idx.Alone id k := by
  obtain ⟨j, hoccurs⟩ := stillToScan_iff.1 hscan
  have hok := u.keyOk h hk
  obtain ⟨hpass, r, hr, hin⟩ := u.occursAt hok hoccurs
  have hsel : Selects start.cmpFuncs plan k := ⟨hpass, r, List.mem_of_getElem? hr, hin⟩
  obtain ⟨k₀, hk₀⟩ : ∃ k₀, start.content id = some k₀ := by
    cases hk₀ : start.content id with
    | none => simp [u.absent id hk₀] at hk
    | some k₀ => exact ⟨k₀, rfl⟩
  have hnot : ¬Met start plan pos k₀ := by
    intro hmet
    obtain ⟨hupdated, hdone⟩ := u.met id k₀ hk₀ hmet
    obtain rfl := Option.some.inj (hupdated.symm.trans hk)
    exact hdone hscan
  obtain rfl : k₀ = k := Option.some.inj ((u.unmet id k₀ hk₀ hnot).symm.trans hk)
  refine ⟨hk₀, hsel, hnot, fun y c hc hequal => ?_⟩
  rw [u.same.cmpFuncs, compareEqual_iff l.cmpFuncs hok (u.keyOk h hc)] at hequal
  cases hky : start.content y with
  | none => simp [u.absent y hky] at hc
  | some ky =>
      by_cases hmet : Met start plan pos ky
      · -- An updated tuple in the same place would still be to be scanned.
        obtain ⟨hupdated, hdone⟩ := u.met y ky hky hmet
        obtain rfl := Option.some.inj (hupdated.symm.trans hc)
        have hok' := h.inv.content_ok hk
        exact absurd (stillToScan_iff.2 ⟨j, hoccurs.congr h.inv h.plan h.scan hok'
          (h.inv.content_ok hc) hequal⟩) hdone
      · obtain rfl := Option.some.inj ((u.unmet y ky hky hmet).symm.trans hc)
        refine l.alone id k₀ hk₀ hsel y ky hky ?_
        rwa [compareEqual_iff l.cmpFuncs hok (u.keyOk h hc)]

/-- A round that returns `id`, which has the tuple `k`, in the range `r`. -/
structure Returns (start : CompoundIndex) (plan : SIQueryPlan) (pos : Option (Nat × SIMultiKey))
    (idx : CompoundIndex) (sc sc' : CiScanCtx) (id : SIId) (k : SIMultiKey) (r : SIPlanRange) :
    Prop where
  content : start.content id = some k
  selected : Selects start.cmpFuncs plan k
  unmet : ¬Met start plan pos k
  alone : idx.Alone id k
  takes : Takes idx sc sc' r k

theorem Returns.range (u : Underway start plan update pos idx sc)
    (t : Returns start plan pos idx sc sc' id k r) :
    plan.ranges[sc'.currentScanRange]? = some r ∧ InRange start.cmpFuncs r k := by
  have hr := t.takes.range
  have hin := t.takes.inRange
  rw [CiScanCtx.currentRange, t.takes.plan, u.onPlan] at hr
  rw [u.same.cmpFuncs] at hin
  exact ⟨hr, hin⟩

/-- No occurrence of a tuple that is not met comes before the one that is returned. -/
theorem Returns.first_le (u : Underway start plan update pos idx sc)
    (t : Returns start plan pos idx sc sc' id k r) {y : SIId} {ky : SIMultiKey}
    (hky : start.content y = some ky) (hnot : ¬Met start plan pos ky)
    (hpass : PassesPlan start.cmpFuncs plan ky) {i : Nat} {r' : SIPlanRange}
    (hr : plan.ranges[i]? = some r') (hin : InRange start.cmpFuncs r' ky) :
    sc'.currentScanRange < i ∨ (sc'.currentScanRange = i ∧ places k ≤ places ky) :=
  t.takes.first y ky i (u.unmet y ky hky hnot) (u.occurs y ky hky hnot hpass i r' hr hin)

/-- The round meets the tuple of its id, and no other one. -/
theorem Returns.met_iff (l : UpdateLoop start plan update)
    (u : Underway start plan update pos idx sc)
    (t : Returns start plan pos idx sc sc' id k r) {y : SIId} {ky : SIMultiKey}
    (hky : start.content y = some ky) :
    Met start plan (some (sc'.currentScanRange, k)) ky ↔ Met start plan pos ky ∨ y = id := by
  have hok := l.typed id k t.content
  have hoky := l.typed y ky hky
  obtain ⟨hr, hin⟩ := t.range u
  constructor
  · rintro ⟨hpass, _, ⟨⟩, i, r', hr', hin', hle⟩
    by_contra hno
    obtain ⟨hnot, hne⟩ := not_or.1 hno
    have hplaces : places k = places ky := by
      rcases t.first_le u hky hnot hpass hr' hin' with hlt | ⟨hi, hle'⟩
      · exact absurd hlt (by omega)
      · rcases hle with hlt | ⟨_, hle⟩
        · exact absurd hlt (by omega)
        · exact le_antisymm hle' hle
    refine hne (t.alone y ky (u.unmet y ky hky hnot) ?_)
    rw [u.same.cmpFuncs, compareEqual_iff l.cmpFuncs hok hoky, hplaces]
  · rintro (⟨hpass, p, hp, i, r', hr', hin', hle⟩ | rfl)
    · refine ⟨hpass, _, rfl, i, r', hr', hin', ?_⟩
      rcases u.behind p hp _ k hok t.takes.occurs with hlt | ⟨hi, hlt⟩
      · exact Or.inl (by omega)
      · rcases hle with hlt' | ⟨hi', hle⟩
        · exact Or.inl (by omega)
        · exact Or.inr ⟨hi'.trans hi, hle.trans hlt.le⟩
    · obtain rfl := Option.some.inj (hky.symm.trans t.content)
      exact ⟨t.selected.1, _, rfl, _, r, hr, hin, Or.inr ⟨rfl, le_rfl⟩⟩

/-- The tuples that the loop has updated are those that it returns before. -/
theorem Returns.updatedBefore_iff (l : UpdateLoop start plan update)
    (u : Underway start plan update pos idx sc)
    (t : Returns start plan pos idx sc sc' id k r) {y : SIId} {ky : SIMultiKey}
    (hky : start.content y = some ky) : UpdatedBefore start plan ky k ↔ Met start plan pos ky := by
  have hok := l.typed id k t.content
  have hoky := l.typed y ky hky
  obtain ⟨hr, hin⟩ := t.range u
  constructor
  · rintro ⟨⟨hpass, _⟩, i, r', hr', hin', hearlier⟩
    by_contra hnot
    have hfirst := t.first_le u hky hnot hpass hr' hin'
    rcases hearlier _ r hr hin with hlt | ⟨hi, hlt⟩
    · omega
    · rw [compareLt_iff l.cmpFuncs hoky hok] at hlt
      rcases hfirst with hlt' | ⟨_, hle⟩
      · omega
      · exact absurd hle (not_le_of_gt hlt)
  · rintro ⟨hpass, p, hp, i, r', hr', hin', hle⟩
    refine ⟨⟨hpass, r', List.mem_of_getElem? hr', hin'⟩, i, r', hr', hin', fun j r₁ hr₁ hin₁ => ?_⟩
    -- All occurrences of the tuple that is returned are behind the place.
    have hoccurs := u.occurs id k t.content t.unmet t.selected.1 j r₁ hr₁ hin₁
    rw [compareLt_iff l.cmpFuncs hoky hok]
    rcases u.behind p hp j k hok hoccurs with hlt | ⟨hj, hlt⟩
    · exact Or.inl (by omega)
    · rcases hle with hlt' | ⟨hi, hle⟩
      · exact Or.inl (by omega)
      · exact Or.inr ⟨hi.trans hj, hle.trans_lt hlt⟩

theorem Returns.tupleAt_iff (l : UpdateLoop start plan update)
    (u : Underway start plan update pos idx sc)
    (t : Returns start plan pos idx sc sc' id k r) {y : SIId} :
    TupleAt start plan update k y c ↔ idx.content y = some c := by
  constructor
  · rintro ⟨ky, hky, ⟨hbefore, rfl⟩ | ⟨hnot, rfl⟩⟩
    · exact (u.met y ky hky ((t.updatedBefore_iff l u hky).1 hbefore)).1
    · exact u.unmet y c hky fun hmet => hnot ((t.updatedBefore_iff l u hky).2 hmet)
  · intro hc
    cases hky : start.content y with
    | none => simp [u.absent y hky] at hc
    | some ky =>
        refine ⟨ky, hky, ?_⟩
        by_cases hmet : Met start plan pos ky
        · obtain rfl := Option.some.inj ((u.met y ky hky hmet).1.symm.trans hc)
          exact Or.inl ⟨(t.updatedBefore_iff l u hky).2 hmet, rfl⟩
        · obtain rfl := Option.some.inj ((u.unmet y ky hky hmet).symm.trans hc)
          exact Or.inr ⟨fun hbefore => hmet ((t.updatedBefore_iff l u hky).1 hbefore), rfl⟩

/-- What the cursor has still to scan after the round. -/
theorem Returns.occursAt_iff (u : Underway start plan update pos idx sc)
    (t : Returns start plan pos idx sc sc' id k r) {j : Nat} (hc : KeyOk start.spec.types c) :
    OccursAt idx sc' j c ↔ PassesPlan start.cmpFuncs plan c ∧
      ((j = sc'.currentScanRange ∧ NotAbove start.cmpFuncs r c ∧
          ∃ y k', idx.content y = some k' ∧ places k < places k' ∧ places k' ≤ places c) ∨
        (sc'.currentScanRange < j ∧
          ∃ r', plan.ranges[j]? = some r' ∧ InRange start.cmpFuncs r' c)) := by
  rw [OccursAt, t.takes.plan, u.onPlan, t.takes.ahead c (u.same.spec ▸ hc), u.same.cmpFuncs]

/-- The updated tuple is still to be scanned where the tuples of the start say so. -/
theorem Returns.stillToScan_iff (l : UpdateLoop start plan update)
    (u : Underway start plan update pos idx sc) (h : CursorAt idx bs sc pending)
    (t : Returns start plan pos idx sc sc' id k r) :
    StillToScan idx sc' (update k) ↔ ScannedAgain start plan update k := by
  have hok := l.typed id k t.content
  have hupdate := l.update k hok
  obtain ⟨hr, hin⟩ := t.range u
  have hbetween : (∃ y k', idx.content y = some k' ∧ places k < places k' ∧
      places k' ≤ places (update k)) ↔ ∃ y c, TupleAt start plan update k y c ∧
        CompareLt start.cmpFuncs k c ∧ CompareLe start.cmpFuncs c (update k) := by
    refine exists_congr fun y => exists_congr fun c => ?_
    rw [t.tupleAt_iff l u]
    refine and_congr_right fun hc => ?_
    rw [compareLt_iff l.cmpFuncs hok (u.keyOk h hc),
      compareLe_iff l.cmpFuncs (u.keyOk h hc) hupdate]
  rw [Secondary.stillToScan_iff]
  constructor
  · rintro ⟨j, hoccurs⟩
    obtain ⟨hpass, ⟨_, habove, hnext⟩ | ⟨hj, r', hr', hin'⟩⟩ := (t.occursAt_iff u hupdate).1 hoccurs
    · exact ⟨hpass, _, r, hr, hin, Or.inl ⟨habove, hbetween.1 hnext⟩⟩
    · exact ⟨hpass, _, r, hr, hin, Or.inr ⟨j, r', hj, hr', hin'⟩⟩
  · rintro ⟨hpass, i, r₁, hr₁, hin₁, hagain⟩
    simp only [t.occursAt_iff u hupdate]
    have hfirst := t.first_le u t.content t.unmet t.selected.1 hr₁ hin₁
    rcases hagain with ⟨habove, hnext⟩ | ⟨j, r', hj, hr', hin'⟩
    · have hnext' := hbetween.2 hnext
      rcases hfirst with hlt | ⟨rfl, _⟩
      · -- In a later range the updated tuple is scanned whatever stands between.
        obtain ⟨_, _, _, hlt', hle⟩ := hnext'
        have hrange := l.planOk.ranges r₁ (List.mem_of_getElem? hr₁)
        have hbelow := hin₁.1.mono l.cmpFuncs hok hupdate hrange (hlt'.le.trans hle)
        exact ⟨i, hpass, Or.inr ⟨hlt, r₁, hr₁, hbelow, habove⟩⟩
      · obtain rfl := Option.some.inj (hr.symm.trans hr₁)
        exact ⟨_, hpass, Or.inl ⟨rfl, habove, hnext'⟩⟩
    · exact ⟨j, hpass, Or.inr ⟨by omega, r', hr', hin'⟩⟩

/-- The id that `Next` returns is the only one of its node. -/
theorem Underway.returns (l : UpdateLoop start plan update)
    (u : Underway start plan update pos idx sc) (h : CursorAt idx bs sc pending)
    (hnext : scanNext idx sc = .ok (sc', some id)) (hk : idx.content id = some k)
    (hscan : StillToScan idx sc k) :
    (∃ r, Returns start plan pos idx sc sc' id k r) ∧ ∃ b ∈ bs, b.vals = [id] ∧
      ∃ r, idx.ri.lookup id = some r ∧ ∀ b ∈ bs, b.key = r → b.vals = [id] := by
  obtain ⟨hstart, hsel, hnot, halone⟩ := u.returned l h hk hscan
  obtain ⟨b, hb, hid⟩ := h.inv.exists_bucket hk
  obtain ⟨hone, hkey⟩ := single_of_alone h.inv hb hid hk halone
  obtain ⟨r, htakes⟩ := scanNext_takes h.inv h.plan h.scan h.first u.inside hnext hb hone hk
  exact ⟨⟨r, hstart, hsel, hnot, halone, htakes⟩, b, hb, hone, hkey⟩

/-- A round whose updated tuple is not scanned again. -/
theorem Underway.step (l : UpdateLoop start plan update)
    (u : Underway start plan update pos idx sc) (h : CursorAt idx bs sc pending)
    (t : Returns start plan pos idx sc sc' id k r) (hagain : ¬ScannedAgain start plan update k)
    (hsame : SameSpec idx idx') (hkept : OthersKept idx bs id idx')
    (hnew : idx'.content id = some (update k))
    (hahead : ∀ c, AheadInRange idx' sc' c ↔ AheadInRange idx sc' c)
    (hothers : ∀ x c, x ≠ id → idx.content x = some c →
      (StillToScan idx' sc' c ↔ StillToScan idx sc c)) :
    Underway start plan update (some (sc'.currentScanRange, k)) idx' sc' := by
  have hok := l.typed id k t.content
  obtain ⟨hr, hin⟩ := t.range u
  have hoccurs : ∀ {j c}, OccursAt idx' sc' j c ↔ OccursAt idx sc' j c := by
    intro j c
    rw [OccursAt, OccursAt, hahead, hsame.cmpFuncs]
  refine
    { same := u.same.trans hsame
      onPlan := t.takes.plan.trans u.onPlan
      inside := ?inside
      behind := ?behind
      absent := ?absent
      met := ?met
      unmet := ?unmet
      occurs := ?occurs }
  case inside =>
    -- The cursor is behind a tuple of its range.
    intro r₁ c hr₁ hc hc'
    obtain rfl := Option.some.inj (t.takes.range.symm.trans hr₁)
    rw [hsame.spec] at hc
    obtain ⟨_, _, _, _, hlt, hle⟩ := (t.takes.ahead c hc).1 ((hahead c).1 hc')
    rw [hsame.cmpFuncs, u.same.cmpFuncs]
    rw [u.same.spec] at hc
    exact hin.1.mono l.cmpFuncs hok hc (l.planOk.ranges r (List.mem_of_getElem? hr))
      (hlt.le.trans hle)
  case behind =>
    rintro p ⟨⟩ j c hc hc'
    rcases ((t.occursAt_iff u hc).1 (hoccurs.1 hc')).2 with ⟨rfl, _, _, _, _, hlt, hle⟩ | ⟨hj, _⟩
    · exact Or.inr ⟨rfl, hlt.trans_le hle⟩
    · exact Or.inl hj
  case absent =>
    intro y hy
    have hne : y ≠ id := by
      rintro rfl
      simp [t.content] at hy
    rw [hkept.content y hne]
    exact u.absent y hy
  case met =>
    intro y ky hky hmet
    by_cases hy : y = id
    · -- The tuple of this round has been updated, and is not scanned again by assumption.
      subst hy
      obtain rfl := Option.some.inj (hky.symm.trans t.content)
      refine ⟨hnew, fun hscan => hagain ?_⟩
      rw [← t.stillToScan_iff l u h]
      obtain ⟨j, hj⟩ := stillToScan_iff.1 hscan
      exact stillToScan_iff.2 ⟨j, hoccurs.1 hj⟩
    · obtain ⟨hupdated, hdone⟩ := u.met y ky hky (((t.met_iff l u hky).1 hmet).resolve_right hy)
      refine ⟨by rw [hkept.content y hy, hupdated], ?_⟩
      rwa [hothers y _ hy hupdated]
  case unmet =>
    intro y ky hky hnot
    rw [t.met_iff l u hky, not_or] at hnot
    rw [hkept.content y hnot.2]
    exact u.unmet y ky hky hnot.1
  case occurs =>
    intro y ky hky hnot hpass i r₁ hr₁ hin₁
    rw [t.met_iff l u hky, not_or] at hnot
    have hoky := l.typed y ky hky
    have hcontent := u.unmet y ky hky hnot.1
    rw [hoccurs, t.occursAt_iff u hoky]
    refine ⟨hpass, ?_⟩
    rcases t.first_le u hky hnot.1 hpass hr₁ hin₁ with hlt | ⟨rfl, hle⟩
    · exact Or.inr ⟨hlt, r₁, hr₁, hin₁⟩
    · -- In the range of the cursor the tuple is one of those behind it.
      obtain rfl := Option.some.inj (hr.symm.trans hr₁)
      refine Or.inl ⟨rfl, hin₁.2, y, ky, hcontent, lt_of_le_of_ne hle fun hplaces => ?_, le_rfl⟩
      refine hnot.2 (t.alone y ky hcontent ?_)
      rw [u.same.cmpFuncs, compareEqual_iff l.cmpFuncs hok hoky, hplaces]

end Round

/-- A cursor that starts has all tuples of the ranges ahead. -/
theorem underway_start {start : CompoundIndex}
    {update : SIMultiKey → SIMultiKey} {bs : List (Bucket KeyRef SIId)} {sc sc₀ : CiScanCtx}
    (h : IndexInv start bs) (hplan : PlanOk start.spec.types sc₀.plan)
    (hplan' : sc.plan = sc₀.plan) (hzero : sc₀.currentScanRange = 0)
    (hcur : sc.currentScanRange = sc₀.currentScanRange)
    (hat : ScanAt start bs sc (startBuckets start bs sc₀)) :
    Underway start sc₀.plan update none start sc := by
  have hrange : sc.currentRange = sc₀.currentRange := by
    rw [CiScanCtx.currentRange, CiScanCtx.currentRange, hplan', hcur]
  refine ⟨⟨rfl, rfl, rfl⟩, hplan', ?_, by simp, fun _ h => h, ?_, fun _ _ h _ => h, ?_⟩
  · intro r c hr hc hahead
    have hok := hplan.ranges r (List.mem_of_getElem? (hrange ▸ hr))
    obtain ⟨⟨d, hd, hle⟩, _⟩ := (aheadInRange_iff h hr hat hc).1 hahead
    rw [startBuckets, ← hrange, hr] at hd
    obtain ⟨hdbs, hin⟩ := List.mem_filter.1 (List.mem_of_mem_head? hd)
    obtain ⟨y, hy⟩ := List.exists_mem_of_ne_nil _ (h.nonempty d hdbs)
    obtain ⟨k, hk⟩ := h.exists_content.1 ((h.mem y).1 (Bucket.mem_allVals.2 ⟨d, hdbs, hy⟩))
    rw [places_key h hdbs hy hk] at hle
    exact ((inScan_iff_tuple h hok hdbs hy hk).1 hin).1.mono h.cmpFuncs (h.content_ok hk) hc hok hle
  · rintro y ky _ ⟨_, _, ⟨⟩, _⟩
  · intro y ky hky _ hpass i r hr hin
    refine ⟨hplan' ▸ hpass, ?_⟩
    rcases Nat.eq_zero_or_pos i with rfl | hpos
    · have hr' : sc.currentRange = some r := by
        rw [hrange, CiScanCtx.currentRange, hzero, hr]
      have hok := hplan.ranges r (List.mem_of_getElem? hr)
      obtain ⟨d, hdbs, hy⟩ := h.exists_bucket hky
      refine Or.inl ⟨(hcur.trans hzero).symm, (aheadInRange_iff h hr' hat (h.content_ok hky)).2 ⟨?_,
        hin.2⟩⟩
      rw [startBuckets, ← hrange, hr', ← places_key h hdbs hy hky]
      exact exists_head_le ((places_lt h).filter _)
        (List.mem_filter.2 ⟨hdbs, (inScan_iff_tuple h hok hdbs hy hky).2 hin⟩)
    · exact Or.inr ⟨by omega, r, hplan' ▸ hr, hin⟩

/-! ## Each id once -/

/-- No round that the loop gets to returns an id whose key is that of a shared node. -/
def Unshared (cmd : Nat → SIId → CompoundIndex → Exec CompoundIndex) (n : Nat)
    (idx : CompoundIndex) (sc : CiScanCtx) : Prop :=
  ∀ n' idx' sc' sc₁ id, Reaches cmd n idx sc n' idx' sc' →
    scanNext idx' sc' = .ok (sc₁, some id) → KeyNotShared idx' id

/-- What `IDX.INTO ... WHERE ...` is to do with an update: the loop ends, it returns the selected
ids, each of them once, and updates their tuples; and no round drops a key that is shared. -/
structure UpdatesOnce (start : CompoundIndex) (plan : SIQueryPlan)
    (update : SIMultiKey → SIMultiKey) (draw : Nat → Level) (sc : CiScanCtx) : Prop where
  ends : ∃ ids idx', Into (updateCommand update draw) 0 start sc ids idx' ∧ ids.Nodup ∧
    (∀ id, id ∈ ids ↔ ∃ k, start.content id = some k ∧ Selects start.cmpFuncs plan k) ∧
    Inv start.spec idx' ∧ ∀ id, idx'.content id =
      if id ∈ ids then (start.content id).map update else start.content id
  unshared : Unshared (updateCommand update draw) 0 start sc

section Updates

variable {start : CompoundIndex} {plan : SIQueryPlan} {update : SIMultiKey → SIMultiKey}
  {draw : Nat → Level} {sc : CiScanCtx} {bs pending : List (Bucket KeyRef SIId)}

/-- An ADD with a tuple that is not scanned again leaves nothing of the id to scan. -/
theorem handles_updateCommand (l : UpdateLoop start plan update) (draw : Nat → Level)
    (hagain : ∀ id k, start.content id = some k → Selects start.cmpFuncs plan k →
      ¬ScannedAgain start plan update k) :
    Handles (updateCommand update draw) (fun k => some (update k)) fun _ idx sc =>
      ∃ pos, Underway start plan update pos idx sc := by
  rintro n idx bs pending sc sc' id k b ⟨pos, u⟩ h hnext hb hid hk hscan
  obtain ⟨⟨r, t⟩, d, hd, hone, r', hl, hkey⟩ := u.returns l h hnext hk hscan
  obtain rfl := bucket_of_id h.inv hb hd hid (by simp [hone])
  have hnot := hagain id k t.content t.selected
  obtain ⟨idx', bs', hrun, hinv, hsame, hkept, hnew⟩ := updateCommand_spec h.inv
    (by rw [u.same.spec]; exact l.multi) hl hkey hk
    (by rw [u.same.spec]; exact l.update k (l.typed id k t.content)) draw n
  refine ⟨hone, idx', bs', hrun, hinv, hsame, hkept, hnew, ?_, fun hahead hothers => ?_⟩
  · rintro _ ⟨⟩ hscan'
    exact hnot ((t.stillToScan_iff l u h).1 hscan')
  · exact ⟨_, u.step l h t hnot hsame hkept hnew hahead hothers⟩

/-- An id whose node holds no other one shares no key. -/
theorem keyNotShared_of_vals {idx : CompoundIndex} {id : SIId} (h : IndexInv idx bs)
    (hkey : ∀ r, idx.ri.lookup id = some r → ∀ b ∈ bs, b.key = r → b.vals = [id]) :
    KeyNotShared idx id := by
  intro r hl x n hn hobj
  obtain ⟨b, hb, rfl⟩ := h.rep.only x r (by simp [Nodes.objAt?, hn, hobj])
  obtain ⟨n', hn', hvals⟩ := Nodes.cell_of_valsAt? (h.rep.vals b hb)
  obtain rfl : n = n' := Option.some.inj (hn.symm.trans hn')
  rw [hvals]
  refine hkey r hl b hb ?_
  have hobj' := h.rep.obj b hb
  rw [Nodes.objAt?, hn] at hobj'
  exact Option.some.inj (hobj'.symm.trans hobj)

/-- Where no selected tuple is scanned again, the loop is as it should be. -/
theorem updatesOnce_of (l : UpdateLoop start plan update)
    (u : Underway start plan update none start sc) (h : CursorAt start bs sc pending)
    (draw : Nat → Level)
    (hselect : ∀ id, id ∈ toReturn start bs sc pending ↔
      ∃ k, start.content id = some k ∧ Selects start.cmpFuncs plan k)
    (hagain : ∀ id k, start.content id = some k → Selects start.cmpFuncs plan k →
      ¬ScannedAgain start plan update k) : UpdatesOnce start plan update draw sc := by
  have hcmd := handles_updateCommand l draw hagain
  refine ⟨?_, ?_⟩
  · obtain ⟨ids, idx', hinto, hnodup, hinv, hmem, hcontent⟩ :=
      into_spec hcmd _ (n := 0) le_rfl ⟨none, u⟩ h
    refine ⟨ids, idx', hinto, hnodup, fun id => ?_, hinv, fun id => ?_⟩
    · rw [hmem, ← h.mem_toReturn, hselect]
    · rw [hcontent id]
      cases start.content id <;> rfl
  · intro n idx sc₁ sc₂ id hreach hnext
    obtain ⟨⟨pos, u'⟩, bs', pending', h'⟩ := reaches_spec hcmd hreach ⟨none, u⟩ h
    obtain ⟨k, hk, hscan⟩ := h'.returned_some hnext
    obtain ⟨_, _, _, _, r, hl, hkey⟩ := u'.returns l h' hnext hk hscan
    refine keyNotShared_of_vals h'.inv fun r' hl' => ?_
    obtain rfl : r = r' := Option.some.inj (hl.symm.trans hl')
    exact hkey

/-! ## An id that comes twice -/

theorem Unshared.next {cmd : Nat → SIId → CompoundIndex → Exec CompoundIndex} {n : Nat}
    {idx idx₁ : CompoundIndex} {sc sc₁ : CiScanCtx} {id : SIId} (h : Unshared cmd n idx sc)
    (hnext : scanNext idx sc = .ok (sc₁, some id)) (hcmd : cmd n id idx = .ok idx₁) :
    KeyNotShared idx id ∧ Unshared cmd (n + 1) idx₁ sc₁ :=
  ⟨h n idx sc sc₁ id (.refl n idx sc) hnext,
    fun n' idx' sc' sc₂ x hreach => h n' idx' sc' sc₂ x (.next hnext hcmd hreach)⟩

/-- A round that drops no shared key: the id has a node of its own, and the tuples of the other ids
are scanned as before. -/
theorem updated_round {spec : SISpec} (hu : spec.isUnique = false)
    (hupdate : ∀ k, KeyOk spec.types k → KeyOk spec.types (update k)) {n : Nat}
    {idx idx₁ : CompoundIndex} {sc' : CiScanCtx} {id : SIId} (h : CursorAt idx bs sc pending)
    (hspec : idx.spec = spec) (hnext : scanNext idx sc = .ok (sc', some id))
    (hcmd : updateCommand update draw n id idx = .ok idx₁) (hkey : KeyNotShared idx id) :
    ∃ b ∈ bs, b.vals = [id] ∧ ∃ k, idx.content id = some k ∧ idx₁.content id = some (update k) ∧
      SameSpec idx idx₁ ∧ OthersKept idx bs id idx₁ ∧
      ∃ bs' pending', CursorAt idx₁ bs' sc' pending' ∧
        (∀ c, AheadInRange idx₁ sc' c ↔ AheadInRange idx sc' c) ∧
        ∀ x c, x ≠ id → idx.content x = some c →
          (StillToScan idx₁ sc' c ↔ StillToScan idx sc c) := by
  obtain ⟨b, hb, hone, r, hl, hvals⟩ := h.returned_single hnext hkey
  obtain ⟨k, hk, _⟩ := h.returned_some hnext
  obtain ⟨idx₂, bs₂, hrun, hinv, hsame, hkept, hnew⟩ := updateCommand_spec h.inv
    (by rw [hspec, hu]) hl hvals hk (hspec ▸ hupdate k (hspec ▸ h.inv.content_ok hk)) draw n
  obtain rfl := Except.ok.inj (hrun.symm.trans hcmd)
  obtain ⟨pending', h', hahead, hothers⟩ := h.kept hnext hb hone hinv hsame hkept
  exact ⟨b, hb, hone, k, hk, hnew, hsame, hkept, bs₂, pending', h', hahead, hothers⟩

/-- A loop that goes on with a tuple of an id still to be scanned returns this id, if it drops no
shared key. -/
theorem returned_again {spec : SISpec} (hu : spec.isUnique = false)
    (hupdate : ∀ k, KeyOk spec.types k → KeyOk spec.types (update k)) {n : Nat}
    {idx idx' : CompoundIndex} {ids : List SIId}
    (hinto : Into (updateCommand update draw) n idx sc ids idx') :
    ∀ {bs pending : List (Bucket KeyRef SIId)} {a : SIId} {c : SIMultiKey},
      CursorAt idx bs sc pending → idx.spec = spec → Unshared (updateCommand update draw) n idx sc →
      idx.content a = some c → StillToScan idx sc c → a ∈ ids := by
  induction hinto with
  | done next =>
      intro bs pending a c h _ _ hc hscan
      exact absurd hscan (h.returned_none next hc)
  | @next n idx idx₁ idx' sc sc' id ids next command _ ih =>
      intro bs pending a c h hspec hfree hc hscan
      obtain ⟨hkey, hfree'⟩ := hfree.next next command
      obtain ⟨_, _, _, _, _, _, hsame, hkept, _, _, h', _, hothers⟩ :=
        updated_round hu hupdate h hspec next command hkey
      -- A round of another id leaves the tuple of `a` still to be scanned.
      by_cases ha : a = id
      · exact ha ▸ List.mem_cons_self
      · exact List.mem_cons_of_mem _ (ih h' (hsame.spec.trans hspec) hfree'
          (by rw [hkept.content a ha, hc]) ((hothers a c ha hc).2 hscan))

/-- In a loop that drops no shared key, an id that is still to be returned has its tuple alone. -/
theorem alone_of_into {spec : SISpec} (hu : spec.isUnique = false)
    (hupdate : ∀ k, KeyOk spec.types k → KeyOk spec.types (update k)) {n : Nat}
    {idx idx' : CompoundIndex} {ids : List SIId}
    (hinto : Into (updateCommand update draw) n idx sc ids idx') :
    ∀ {bs pending : List (Bucket KeyRef SIId)} {a : SIId} {c : SIMultiKey},
      CursorAt idx bs sc pending → idx.spec = spec → Unshared (updateCommand update draw) n idx sc →
      idx.content a = some c → StillToScan idx sc c → idx.Alone a c := by
  induction hinto with
  | done next =>
      intro bs pending a c h _ _ hc hscan
      exact absurd hscan (h.returned_none next hc)
  | @next n idx idx₁ idx' sc sc' id ids next command _ ih =>
      intro bs pending a c h hspec hfree hc hscan y cy hcy hequal
      obtain ⟨hkey, hfree'⟩ := hfree.next next command
      obtain ⟨b, hb, hone, k, hk, _, hsame, hkept, _, _, h', _, hothers⟩ :=
        updated_round hu hupdate h hspec next command hkey
      -- Ids with equal tuples are in one node, and the id of this round is alone in its node.
      obtain ⟨d, hd, had⟩ := h.inv.exists_bucket hc
      obtain ⟨e, he, hye⟩ := h.inv.exists_bucket hcy
      obtain rfl := (h.inv.same_bucket hd he had hye hc hcy).1 hequal
      have hsingle : id ∈ d.vals → d.vals = [id] := by
        intro hid
        obtain rfl := bucket_of_id h.inv hd hb hid (by simp [hone])
        exact hone
      by_cases ha : a = id
      · subst ha
        simpa [hsingle had] using hye
      by_cases hy : y = id
      · subst hy
        exact absurd (by simpa [hsingle hye] using had) ha
      · have hothers' := (hothers a c ha hc).2 hscan
        refine ih h' (hsame.spec.trans hspec) hfree' (by rw [hkept.content a ha, hc]) hothers' y cy
          (by rw [hkept.content y hy, hcy]) ?_
        rwa [hsame.cmpFuncs]

/-- A loop that returns each id once scans no updated tuple again. -/
theorem not_scannedAgain_of_into (l : UpdateLoop start plan update) {n : Nat}
    {idx idx' : CompoundIndex} {ids : List SIId}
    (hinto : Into (updateCommand update draw) n idx sc ids idx') :
    ∀ {pos : Option (Nat × SIMultiKey)} {bs pending : List (Bucket KeyRef SIId)},
      Underway start plan update pos idx sc → CursorAt idx bs sc pending →
      Unshared (updateCommand update draw) n idx sc → ids.Nodup →
      ∀ x k, start.content x = some k → Selects start.cmpFuncs plan k → ¬Met start plan pos k →
        ¬ScannedAgain start plan update k := by
  induction hinto with
  | done next =>
      intro pos bs pending u h _ _ x k hk ⟨hpass, r, hr, hin⟩ hnot
      obtain ⟨i, hi⟩ := List.mem_iff_getElem?.1 hr
      exact absurd (stillToScan_iff.2 ⟨i, u.occurs x k hk hnot hpass i r hi hin⟩)
        (h.returned_none next (u.unmet x k hk hnot))
  | @next n idx idx₁ idx' sc sc' id ids next command rest ih =>
      intro pos bs pending u h hfree hnodup
      obtain ⟨hkey, hfree'⟩ := hfree.next next command
      obtain ⟨hid, hnodup⟩ := List.nodup_cons.1 hnodup
      obtain ⟨_, _, _, k, hk, hnew, hsame, hkept, bs', pending', h', hahead, hothers⟩ :=
        updated_round l.multi l.update h u.same.spec next command hkey
      obtain ⟨k', hk', hscan⟩ := h.returned_some next
      obtain rfl := Option.some.inj (hk.symm.trans hk')
      obtain ⟨⟨r, t⟩, _⟩ := u.returns l h next hk hscan
      -- An updated tuple that is still to be scanned would bring its id into the rest of the list.
      have hagain : ¬ScannedAgain start plan update k := by
        intro hagain
        have hscan' := (t.stillToScan_iff l u h).2 hagain
        have hstill : StillToScan idx₁ sc' (update k) := by
          simpa only [StillToScan, hahead, hsame.cmpFuncs] using hscan'
        exact hid (returned_again l.multi l.update rest h' (hsame.spec.trans u.same.spec) hfree'
          hnew hstill)
      intro x kx hkx hsel hnot
      by_cases hx : x = id
      · subst hx
        obtain rfl := Option.some.inj (hkx.symm.trans t.content)
        exact hagain
      · have u' := u.step l h t hagain hsame hkept hnew hahead hothers
        refine ih u' h' hfree' hnodup x kx hkx hsel fun hmet => ?_
        exact ((t.met_iff l u hkx).1 hmet).elim hnot hx

end Updates

/-- `$1 > 0` -/
def greaterThanZero : SIQuery where
  root := siPredBetween 0 (.int32 0) .inf true true
  numPredicates := 1

/-- From `1` to `3`, from `9` to `2`, and other tuples stay. -/
def oneToThree (k : SIMultiKey) : SIMultiKey :=
  if k = [.int32 1] then [.int32 3] else if k = [.int32 9] then [.int32 2] else k

/-- Three ids with a tuple each. -/
def threeTuples : List (List (SIChange × Level)) :=
  [[add idA (.int32 1), add idB (.int32 4), add idC (.int32 9)]]

/-- From `1` to `7`, and other tuples stay. -/
def oneToSeven (k : SIMultiKey) : SIMultiKey :=
  if k = [.int32 1] then [.int32 7] else k

end Secondary
