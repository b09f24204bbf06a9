import Secondary.Into

/-!
# ScanPlace — where a cursor is after it has returned an id

`Comes` says in which range an id is still to be returned.  A call of `Next` returns the id that
comes first, and leaves the cursor behind it: in its range, what is ahead then is not before the
next tuple that is stored.
-/

namespace Secondary

open Lib

/-! ## The range that an id comes in -/

/-- The id is still to be returned in range `j`. -/
def Comes (idx : CompoundIndex) (bs : List (Bucket KeyRef SIId)) (sc : CiScanCtx)
    (pending : List (Bucket KeyRef SIId)) (j : Nat) (id : SIId) : Prop :=
  (j = sc.currentScanRange ∧ id ∈ passing idx sc.plan pending) ∨
    (sc.currentScanRange < j ∧ ∃ r, sc.plan.ranges[j]? = some r ∧ id ∈ rangeIds idx sc.plan bs r)

/-- What is left of the current range lies in it. -/
def PendingIn (idx : CompoundIndex) (sc : CiScanCtx) (pending : List (Bucket KeyRef SIId)) : Prop :=
  ∀ r, sc.currentRange = some r → ∀ b ∈ pending, inScan idx r b.key = true

section Loop

variable {idx : CompoundIndex} {bs pending : List (Bucket KeyRef SIId)} {sc : CiScanCtx}

theorem pendingIn_startBuckets {sc₁ : CiScanCtx} (hplan : sc₁.plan = sc.plan)
    (hcur : sc₁.currentScanRange = sc.currentScanRange) :
    PendingIn idx sc₁ (startBuckets idx bs sc) := by
  intro r hr b hb
  rw [CiScanCtx.currentRange, hplan, hcur] at hr
  simp only [startBuckets, CiScanCtx.currentRange, hr, List.mem_filter] at hb
  exact hb.2

/-- Taking a value keeps the keys. -/
theorem exists_key_of_mem_advance {b : Bucket KeyRef SIId} :
    ∀ {ds : List (Bucket KeyRef SIId)}, b ∈ advance ds → ∃ d ∈ ds, d.key = b.key
  | [], hb => by cases hb
  | d :: ds, hb => by
      simp only [advance] at hb
      split at hb
      · rcases List.mem_cons.1 hb with rfl | hb
        · exact ⟨d, List.mem_cons_self, rfl⟩
        · exact ⟨b, List.mem_cons_of_mem _ hb, rfl⟩
      · exact ⟨b, List.mem_cons_of_mem _ hb, rfl⟩

theorem PendingIn.advance (h : PendingIn idx sc pending) (it : SkiplistIterator SIMultiKey) :
    PendingIn idx { sc with it := some it } (advance pending) := by
  intro r hr b hb
  obtain ⟨d, hd, hkey⟩ := exists_key_of_mem_advance hb
  rw [← hkey]
  exact h r hr d hd

/-- Entering the next range leaves what comes as it is. -/
theorem comes_enter {sc₀ sc₁ : CiScanCtx} (hplan₀ : sc₀.plan = sc.plan)
    (hcur₀ : sc₀.currentScanRange = sc.currentScanRange + 1) (hplan₁ : sc₁.plan = sc₀.plan)
    (hcur₁ : sc₁.currentScanRange = sc₀.currentScanRange) (j : Nat) (id : SIId) :
    Comes idx bs sc₁ (startBuckets idx bs sc₀) j id ↔ Comes idx bs sc [] j id := by
  have hplan : sc₁.plan = sc.plan := hplan₁.trans hplan₀
  have hcur : sc₁.currentScanRange = sc.currentScanRange + 1 := hcur₁.trans hcur₀
  have hstart : id ∈ passing idx sc.plan (startBuckets idx bs sc₀) ↔
      ∃ r, sc.plan.ranges[sc.currentScanRange + 1]? = some r ∧ id ∈ rangeIds idx sc.plan bs r := by
    simp only [startBuckets, CiScanCtx.currentRange, hplan₀, hcur₀]
    cases hr : sc.plan.ranges[sc.currentScanRange + 1]? with
    | none => simp [passing]
    | some r => simp [rangeIds]
  simp only [Comes, hplan, hcur, hstart]
  constructor
  · rintro (⟨rfl, r, hr, hid⟩ | ⟨hlt, r, hr, hid⟩)
    · exact Or.inr ⟨Nat.lt_succ_self _, r, hr, hid⟩
    · exact Or.inr ⟨by omega, r, hr, hid⟩
  · rintro (⟨_, hid⟩ | ⟨hlt, r, hr, hid⟩)
    · simp [passing] at hid
    · rcases Nat.lt_or_eq_of_le hlt with hlt | rfl
      · exact Or.inr ⟨hlt, r, hr, hid⟩
      · exact Or.inl ⟨rfl, r, hr, hid⟩

/-- What the value at the cursor adds to what comes. -/
theorem comes_take {it : SkiplistIterator SIMultiKey} {front : List SIId}
    (hreturn : toReturn idx bs sc pending =
      front ++ toReturn idx bs { sc with it := some it } (advance pending)) (j : Nat) (id : SIId) :
    Comes idx bs sc pending j id ↔ (j = sc.currentScanRange ∧ id ∈ front) ∨
      Comes idx bs { sc with it := some it } (advance pending) j id := by
  have hpassing : passing idx sc.plan pending = front ++ passing idx sc.plan (advance pending) := by
    simp only [toReturn, ← List.append_assoc] at hreturn
    exact List.append_cancel_right hreturn
  simp only [Comes, hpassing, List.mem_append]
  tauto

/-- The rounds that end with an id take it where the cursor then stands, and what came before they
started still comes there. -/
theorem scanLoop_found (h : ListInv idx bs) {id : SIId} {sc' : CiScanCtx} :
    ∀ {fuel : Nat} {sc : CiScanCtx} {pending : List (Bucket KeyRef SIId)},
      PlanOk idx.spec.types sc.plan → ScanAt idx bs sc pending → PendingIn idx sc pending →
      scanLoop idx fuel sc = .ok (sc', some id) →
      ∃ sc₁ pending₁ it it' x, sc₁.plan = sc.plan ∧
        sc₁.currentScanRange < sc₁.plan.ranges.length ∧ ScanAt idx bs sc₁ pending₁ ∧
        PendingIn idx sc₁ pending₁ ∧
        (∀ j y, Comes idx bs sc₁ pending₁ j y ↔ Comes idx bs sc pending j y) ∧
        sc₁.it = some it ∧ it.current = some x ∧ passes idx sc₁.plan x = true ∧
        skiplistIteratorNext idx.compareBound idx.sl it = .ok (it', some id) ∧
        sc' = { sc₁ with it := some it' }
  | 0, _, _, _, _, _, hrun => by cases hrun
  | fuel + 1, sc, pending, hplan, hat, hin, hrun => by
      by_cases hlt : sc.currentScanRange < sc.plan.ranges.length
      · obtain ⟨r, hr⟩ : ∃ r, sc.currentRange = some r := ⟨_, List.getElem?_eq_getElem hlt⟩
        obtain ⟨it, hscit, _, _, hit⟩ : ∃ it, sc.it = some it ∧ it.rangeMax = some r.max ∧
            it.maxExclusive = r.maxExclusive ∧ IterAt bs (aboveRange idx r) it pending := by
          simpa only [ScanAt, hr] using hat
        simp only [scanLoop, if_pos hlt, hscit, orFault_some, ok_bind] at hrun
        cases hcurrent : it.current with
        | none =>
            obtain rfl : pending = [] := by
              cases hit with
              | done => rfl
              | «at» _ _ _ _ current => simp [hcurrent] at current
            obtain ⟨sc₀, hsc₀⟩ : ∃ sc₀ : CiScanCtx,
                sc₀ = { sc with currentScanRange := sc.currentScanRange + 1 } := ⟨_, rfl⟩
            have hplan₀ : sc₀.plan = sc.plan := by rw [hsc₀]
            have hcur₀ : sc₀.currentScanRange = sc.currentScanRange + 1 := by rw [hsc₀]
            obtain ⟨sc₁, hstart, hplan₁, hcur₁, hat₁⟩ := startRange_spec h (hplan₀ ▸ hplan)
            have hstart' : CiScanCtx.startRange idx
                { plan := sc.plan, currentScanRange := sc.currentScanRange + 1, it := some it } =
                  .ok sc₁ := by
              rw [← hstart, hsc₀, hscit]
            simp only [hcurrent, hstart', ok_bind] at hrun
            obtain ⟨sc₂, pending₂, it₂, it', x, hplan₂, hlt₂, hat₂, hin₂, hcomes, hrest⟩ :=
              scanLoop_found h (by rwa [hplan₁, hplan₀]) hat₁
                (pendingIn_startBuckets hplan₁ hcur₁) hrun
            exact ⟨sc₂, pending₂, it₂, it', x, hplan₂.trans (hplan₁.trans hplan₀), hlt₂, hat₂,
              hin₂, fun j y => (hcomes j y).trans (comes_enter hplan₀ hcur₀ hplan₁ hcur₁ j y),
              hrest⟩
        | some x =>
            obtain ⟨it', v, hpass, hnext, hat₁, hreturn, _⟩ :=
              takeValue_spec h hplan hlt hat hscit hcurrent
            simp only [hcurrent, hpass, hnext, ok_bind] at hrun
            cases hp : passes idx sc.plan x with
            | true =>
                simp only [hp, if_true] at hrun
                obtain ⟨rfl, hv⟩ := Prod.mk.inj (Except.ok.inj hrun)
                exact ⟨sc, pending, it, it', x, rfl, hlt, hat, hin, fun _ _ => Iff.rfl, hscit,
                  hcurrent, hp, by rw [hnext, hv], rfl⟩
            | false =>
                simp only [hp, Bool.false_eq_true, if_false] at hrun hreturn
                have hplan₁ : PlanOk idx.spec.types ({ sc with it := some it' } : CiScanCtx).plan :=
                  hplan
                obtain ⟨sc₂, pending₂, it₂, it₃, y, hplan₂, hlt₂, hat₂, hin₂, hcomes, hrest⟩ :=
                  scanLoop_found h hplan₁ hat₁ (hin.advance it') hrun
                refine ⟨sc₂, pending₂, it₂, it₃, y, hplan₂, hlt₂, hat₂, hin₂, fun j z => ?_, hrest⟩
                rw [hcomes, comes_take hreturn]
                simp
      · simp only [scanLoop, if_neg hlt] at hrun
        cases hrun

end Loop

/-! ## The tuples that are still to come -/

/-- The cursor has still to scan the tuple `c` in range `j`, and the filter lets it pass. -/
def OccursAt (idx : CompoundIndex) (sc : CiScanCtx) (j : Nat) (c : SIMultiKey) : Prop :=
  PassesPlan idx.cmpFuncs sc.plan c ∧
    ((j = sc.currentScanRange ∧ AheadInRange idx sc c) ∨
      (sc.currentScanRange < j ∧ ∃ r, sc.plan.ranges[j]? = some r ∧ InRange idx.cmpFuncs r c))

theorem stillToScan_iff {idx : CompoundIndex} {sc : CiScanCtx} {c : SIMultiKey} :
    StillToScan idx sc c ↔ ∃ j, OccursAt idx sc j c := by
  have hlater : (∃ r ∈ sc.plan.ranges.drop (sc.currentScanRange + 1), InRange idx.cmpFuncs r c) ↔
      ∃ j, sc.currentScanRange < j ∧
        ∃ r, sc.plan.ranges[j]? = some r ∧ InRange idx.cmpFuncs r c := by
    simp only [List.mem_iff_getElem?, List.getElem?_drop]
    constructor
    · rintro ⟨r, ⟨n, hr⟩, hin⟩
      exact ⟨_, by omega, r, hr, hin⟩
    · rintro ⟨j, hj, r, hr, hin⟩
      refine ⟨r, ⟨j - (sc.currentScanRange + 1), ?_⟩, hin⟩
      rwa [Nat.add_sub_cancel' hj]
  constructor
  · rintro ⟨hpass, hahead | hin⟩
    · exact ⟨_, hpass, Or.inl ⟨rfl, hahead⟩⟩
    · obtain ⟨j, hj, hin⟩ := hlater.1 hin
      exact ⟨j, hpass, Or.inr ⟨hj, hin⟩⟩
  · rintro ⟨j, hpass, ⟨_, hahead⟩ | ⟨hj, hin⟩⟩
    · exact ⟨hpass, Or.inl hahead⟩
    · exact ⟨hpass, Or.inr (hlater.2 ⟨j, hj, hin⟩)⟩

/-- What is ahead in the current range is not before it. -/
def AheadInside (idx : CompoundIndex) (sc : CiScanCtx) : Prop :=
  ∀ r c, sc.currentRange = some r → KeyOk idx.spec.types c → AheadInRange idx sc c →
    NotBelow idx.cmpFuncs r c

section Tuples

variable {idx : CompoundIndex} {bs pending : List (Bucket KeyRef SIId)} {sc : CiScanCtx}
  {c : SIMultiKey} {r : SIPlanRange}

theorem OccursAt.inRange (hin : AheadInside idx sc) (hc : KeyOk idx.spec.types c) {j : Nat}
    (h : OccursAt idx sc j c) : ∃ r, sc.plan.ranges[j]? = some r ∧ InRange idx.cmpFuncs r c := by
  obtain ⟨_, ⟨rfl, hahead⟩ | ⟨_, hr⟩⟩ := h
  · obtain ⟨r, _, _, _, hr, _, _, _, _, habove⟩ := id hahead
    exact ⟨r, hr, hin r c hr hc hahead, habove⟩
  · exact hr

/-- Tuples with the same places occur together. -/
theorem OccursAt.congr (h : IndexInv idx bs) (hplan : PlanOk idx.spec.types sc.plan)
    (hat : ScanAt idx bs sc pending) {c' : SIMultiKey} (hc : KeyOk idx.spec.types c)
    (hc' : KeyOk idx.spec.types c') (hsame : places c = places c') {j : Nat}
    (hoccurs : OccursAt idx sc j c) : OccursAt idx sc j c' := by
  obtain ⟨hpass, hplace⟩ := hoccurs
  refine ⟨hpass.congr h.cmpFuncs hc hc' hplan hsame, ?_⟩
  rcases hplace with ⟨hj, hahead⟩ | ⟨hj, r, hr, hin⟩
  · obtain ⟨r, _, _, _, hr, _⟩ := id hahead
    have hrange := hplan.ranges r (List.mem_of_getElem? hr)
    rw [aheadInRange_iff h hr hat hc, hsame] at hahead
    rw [aheadInRange_iff h hr hat hc']
    exact Or.inl ⟨hj, hahead.1, hahead.2.mono h.cmpFuncs hc' hc hrange hsame.ge⟩
  · have hrange := hplan.ranges r (List.mem_of_getElem? hr)
    exact Or.inr ⟨hj, r, hr, hin.congr h.cmpFuncs hc hc' hrange hsame⟩

/-- What comes are the ids of the tuples that are still to be scanned. -/
theorem comes_iff (h : IndexInv idx bs) (hplan : PlanOk idx.spec.types sc.plan)
    (hat : ScanAt idx bs sc pending) (hfirst : AtFirstValue sc) {j : Nat} {id : SIId} :
    Comes idx bs sc pending j id ↔ ∃ c, idx.content id = some c ∧ OccursAt idx sc j c := by
  have hpending : id ∈ passing idx sc.plan pending ↔ ∃ c, idx.content id = some c ∧
      PassesPlan idx.cmpFuncs sc.plan c ∧ AheadInRange idx sc c := by
    cases hr : sc.currentRange with
    | none =>
        obtain rfl : pending = [] := by simpa [ScanAt, hr] using hat
        simp [passing, AheadInRange, hr]
    | some r => exact mem_passing_pending h hplan hr hat hfirst
  rw [Comes, hpending]
  constructor
  · rintro (⟨rfl, c, hc, hpass, hahead⟩ | ⟨hj, r, hr, hid⟩)
    · exact ⟨c, hc, hpass, Or.inl ⟨rfl, hahead⟩⟩
    · obtain ⟨c, hc, hpass, hin⟩ := (mem_rangeIds h hplan (List.mem_of_getElem? hr)).1 hid
      exact ⟨c, hc, hpass, Or.inr ⟨hj, r, hr, hin⟩⟩
  · rintro ⟨c, hc, hpass, ⟨rfl, hahead⟩ | ⟨hj, r, hr, hin⟩⟩
    · exact Or.inl ⟨rfl, c, hc, hpass, hahead⟩
    · exact Or.inr ⟨hj, r, hr,
        (mem_rangeIds h hplan (List.mem_of_getElem? hr)).2 ⟨c, hc, hpass, hin⟩⟩

theorem pendingIn_of_aheadInside (h : IndexInv idx bs) (hplan : PlanOk idx.spec.types sc.plan)
    (hat : ScanAt idx bs sc pending) (hin : AheadInside idx sc) : PendingIn idx sc pending := by
  intro r hr b hb
  have hrange := hplan.ranges r (List.mem_of_getElem? hr)
  have hahead := fun c hc => aheadInRange_iff (k := c) h hr hat hc
  simp only [ScanAt, hr] at hat
  obtain ⟨it, _, _, _, hit⟩ := hat
  cases hit with
  | done _ => cases hb
  | «at» as d cs split current offset within =>
      have hsorted := List.pairwise_append.1 (split ▸ places_lt h)
      obtain ⟨e, he, hkey, hle, habove⟩ : ∃ e ∈ bs, e.key = b.key ∧
          idx.places d.key ≤ idx.places e.key ∧ aboveRange idx r e.key = false := by
        rcases List.mem_cons.1 hb with rfl | hb
        · exact ⟨d, by simp [split], rfl, le_rfl, within⟩
        · have hmem := (List.takeWhile_sublist _).subset hb
          exact ⟨b, by simp [split, hmem], rfl,
            le_of_lt ((List.pairwise_cons.1 hsorted.2.1).1 b hmem),
            by simpa using List.mem_takeWhile_imp hb⟩
      obtain ⟨y, hy⟩ := List.exists_mem_of_ne_nil _ (h.nonempty e he)
      obtain ⟨c, hc⟩ := h.exists_content.1 ((h.mem y).1 (Bucket.mem_allVals.2 ⟨e, he, hy⟩))
      have hok := h.content_ok hc
      have habove' := (aboveRange_eq_false h hrange he hy hc).1 habove
      rw [← hkey, inScan_iff_tuple h hrange he hy hc]
      refine ⟨hin r c hr hok ((hahead c hok).2 ⟨⟨_, rfl, ?_⟩, habove'⟩), habove'⟩
      rw [← places_key h he hy hc]
      exact hle

end Tuples

/-! ## The id that is returned -/

/-- What `Next` does that returns an id with the tuple `k`: it takes the first occurrence of all
tuples that are stored, and the cursor is then behind it in the range `r`. -/
structure Takes (idx : CompoundIndex) (sc sc' : CiScanCtx) (r : SIPlanRange) (k : SIMultiKey) :
    Prop where
  plan : sc'.plan = sc.plan
  range : sc'.currentRange = some r
  inRange : InRange idx.cmpFuncs r k
  occurs : OccursAt idx sc sc'.currentScanRange k
  first : ∀ y c j, idx.content y = some c → OccursAt idx sc j c →
    sc'.currentScanRange < j ∨ (sc'.currentScanRange = j ∧ places k ≤ places c)
  /-- The cursor stands at the next tuple that is stored, if this is in the range. -/
  ahead : ∀ c, KeyOk idx.spec.types c → (AheadInRange idx sc' c ↔ NotAbove idx.cmpFuncs r c ∧
    ∃ y k', idx.content y = some k' ∧ places k < places k' ∧ places k' ≤ places c)

/-- The first bucket is not after the others. -/
theorem exists_head_le {idx : CompoundIndex} {ds : List (Bucket KeyRef SIId)}
    {b : Bucket KeyRef SIId}
    (hsorted : ds.Pairwise fun a b => idx.places a.key < idx.places b.key) (hb : b ∈ ds) :
    ∃ d ∈ ds.head?, idx.places d.key ≤ idx.places b.key := by
  cases ds with
  | nil => cases hb
  | cons d ds =>
      refine ⟨d, rfl, ?_⟩
      rcases List.mem_cons.1 hb with rfl | hb
      · exact le_rfl
      · exact le_of_lt ((List.pairwise_cons.1 hsorted).1 b hb)

/-- The next bucket of the range is not after a tuple of the range: some tuple is stored between the
bucket before it and this tuple. -/
theorem head_takeWhile_iff {idx : CompoundIndex} {bs as cs : List (Bucket KeyRef SIId)}
    {b : Bucket KeyRef SIId} {r : SIPlanRange} {c : SIMultiKey} (h : IndexInv idx bs)
    (hr : RangeOk idx.spec.types r) (split : bs = as ++ b :: cs) (hc : KeyOk idx.spec.types c)
    (habove : NotAbove idx.cmpFuncs r c) :
    (∃ d ∈ (cs.takeWhile fun d => !aboveRange idx r d.key).head?,
      idx.places d.key ≤ places c) ↔
      ∃ y k', idx.content y = some k' ∧ idx.places b.key < places k' ∧ places k' ≤ places c := by
  have hsorted := List.pairwise_append.1 (split ▸ places_lt h)
  have hbehind := List.pairwise_cons.1 hsorted.2.1
  constructor
  · rintro ⟨d, hd, hle⟩
    have hmem : d ∈ cs := (List.takeWhile_sublist _).subset (List.mem_of_mem_head? hd)
    have hdbs : d ∈ bs := by simp [split, hmem]
    obtain ⟨y, hy⟩ := List.exists_mem_of_ne_nil _ (h.nonempty d hdbs)
    obtain ⟨k', hk'⟩ := h.exists_content.1 ((h.mem y).1 (Bucket.mem_allVals.2 ⟨d, hdbs, hy⟩))
    rw [places_key h hdbs hy hk'] at hle
    exact ⟨y, k', hk', (hbehind.1 d hmem).trans_eq (places_key h hdbs hy hk'), hle⟩
  · rintro ⟨y, k', hk', hlt, hle⟩
    obtain ⟨d, hdbs, hy⟩ := h.exists_bucket hk'
    have hd := places_key h hdbs hy hk'
    -- The node of the tuple is behind the one at the cursor.
    have hmem : d ∈ cs := by
      rw [split] at hdbs
      rcases List.mem_append.1 hdbs with hmem | hmem
      · have hless := hsorted.2.2 d hmem b (by simp)
        exact absurd (hd ▸ hless) (not_lt_of_gt hlt)
      · rcases List.mem_cons.1 hmem with rfl | hmem
        · exact absurd (hd ▸ hlt) (lt_irrefl _)
        · exact hmem
    obtain ⟨e, he, hle'⟩ := exists_head_le hbehind.2 hmem
    rw [hd] at hle'
    cases cs with
    | nil => cases hmem
    | cons e' cs =>
        obtain rfl : e' = e := Option.some.inj he
        have hebs : e' ∈ bs := by simp [split]
        -- So the node behind the cursor's is not past the range either.
        obtain ⟨z, hz⟩ := List.exists_mem_of_ne_nil _ (h.nonempty e' hebs)
        obtain ⟨k₁, hk₁⟩ := h.exists_content.1 ((h.mem z).1 (Bucket.mem_allVals.2 ⟨e', hebs, hz⟩))
        have hin : aboveRange idx r e'.key = false := by
          rw [aboveRange_eq_false h hr hebs hz hk₁]
          refine habove.mono h.cmpFuncs (h.content_ok hk₁) hc hr ?_
          rw [← places_key h hebs hz hk₁]
          exact hle'.trans hle
        exact ⟨e', by simp [hin], hle'.trans hle⟩

/-- Buckets of one id are one. -/
theorem bucket_of_id {idx : CompoundIndex} {bs : List (Bucket KeyRef SIId)} {id : SIId}
    {b d : Bucket KeyRef SIId} (h : IndexInv idx bs) (hb : b ∈ bs) (hd : d ∈ bs)
    (hid : id ∈ b.vals) (hid' : id ∈ d.vals) : b = d := by
  obtain ⟨k, hk⟩ := h.exists_content.1 ((h.mem id).1 (Bucket.mem_allVals.2 ⟨b, hb, hid⟩))
  refine (h.same_bucket hb hd hid hid' hk hk).1 ?_
  exact (compareEqual_iff h.cmpFuncs (h.content_ok hk) (h.content_ok hk)).2 rfl

theorem scanNext_takes {idx : CompoundIndex} {bs pending : List (Bucket KeyRef SIId)}
    {sc sc' : CiScanCtx} {id : SIId} {k : SIMultiKey} {b : Bucket KeyRef SIId}
    (h : IndexInv idx bs) (hplan : PlanOk idx.spec.types sc.plan) (hat : ScanAt idx bs sc pending)
    (hfirst : AtFirstValue sc) (hin : AheadInside idx sc)
    (hrun : scanNext idx sc = .ok (sc', some id)) (hb : b ∈ bs) (hone : b.vals = [id])
    (hk : idx.content id = some k) : ∃ r, Takes idx sc sc' r k := by
  obtain ⟨sc₁, pending₁, it, it', x, hplan₁, hlt, hat₁, hin₁, hcomes, hscit, hx, hpass, hnext,
    rfl⟩ := scanLoop_found h.list hplan hat (pendingIn_of_aheadInside h hplan hat hin) hrun
  have hplan' : PlanOk idx.spec.types sc₁.plan := by rwa [hplan₁]
  have hid : id ∈ b.vals := by simp [hone]
  obtain ⟨r, hr⟩ : ∃ r, sc₁.currentRange = some r := ⟨_, List.getElem?_eq_getElem hlt⟩
  have hrange := hplan'.ranges r (List.mem_of_getElem? hr)
  obtain ⟨it'', v, _, hnext'', hat', _⟩ := takeValue_spec h.list hplan' hlt hat₁ hscit hx
  obtain ⟨rfl, _⟩ := Prod.mk.inj (Except.ok.inj (hnext''.symm.trans hnext))
  obtain ⟨it₁, hit₁, _, _, hit⟩ : ∃ it, sc₁.it = some it ∧ it.rangeMax = some r.max ∧
      it.maxExclusive = r.maxExclusive ∧ IterAt bs (aboveRange idx r) it pending₁ := by
    simpa only [ScanAt, hr] using hat₁
  obtain rfl : it₁ = it := Option.some.inj (hit₁.symm.trans hscit)
  cases hit with
  | done hdone => simp [hdone] at hx
  | «at» as d cs split current offset within =>
      obtain rfl : d.tag = x := Option.some.inj (current.symm.trans hx)
      have hd : d ∈ bs := by simp [split]
      -- The id is the only value of the node that the iterator stands at.
      obtain ⟨node, hnode, hvals⟩ := Nodes.cell_of_valsAt? (h.rep.vals d hd)
      have hret : some id = d.vals[it₁.currentValOffset]? := by
        rw [← hvals]
        exact iteratorNext_val hx hnode hnext
      obtain rfl := bucket_of_id h hd hb (List.mem_of_getElem? hret.symm) hid
      have hoffset : it₁.currentValOffset = 0 := by
        rw [hone] at offset
        simpa using offset
      have hfirst₁ : AtFirstValue sc₁ := by
        intro it hit
        obtain rfl : it₁ = it := Option.some.inj (hscit.symm.trans hit)
        exact hoffset
      have hplaces := places_key h hd hid hk
      have hok := h.content_ok hk
      have hscan : inScan idx r d.key = true :=
        hin₁ r hr { d with vals := d.vals.drop it₁.currentValOffset } List.mem_cons_self
      have hin : InRange idx.cmpFuncs r k := (inScan_iff_tuple h hrange hd hid hk).1 hscan
      have hahead : ∀ c, KeyOk idx.spec.types c → (AheadInRange idx sc₁ c ↔
          places k ≤ places c ∧ NotAbove idx.cmpFuncs r c) := by
        intro c hc
        rw [aheadInRange_iff h hr hat₁ hc]
        simp [hplaces]
      have hrest : advance ({ d with vals := d.vals.drop it₁.currentValOffset } ::
          cs.takeWhile fun e => !aboveRange idx r e.key) =
            cs.takeWhile fun e => !aboveRange idx r e.key := by
        simp [advance, hoffset, hone]
      rw [hrest] at hat'
      have htaken : OccursAt idx sc₁ sc₁.currentScanRange k :=
        ⟨(passes_iff h hplan' hd hid hk).1 hpass, Or.inl ⟨rfl, (hahead k hok).2 ⟨le_rfl, hin.2⟩⟩⟩
      refine ⟨r, ⟨hplan₁, hr, hin, ?_, ?_, ?_⟩⟩
      · obtain ⟨c, hc, hoccurs⟩ := (comes_iff h hplan hat hfirst).1
          ((hcomes _ _).1 ((comes_iff h hplan' hat₁ hfirst₁).2 ⟨k, hk, htaken⟩))
        obtain rfl : k = c := Option.some.inj (hk.symm.trans hc)
        exact hoccurs
      · intro y c j hc hoccurs
        obtain ⟨c', hc', _, hplace⟩ := (comes_iff h hplan' hat₁ hfirst₁).1
          ((hcomes _ _).2 ((comes_iff h hplan hat hfirst).2 ⟨c, hc, hoccurs⟩))
        obtain rfl : c = c' := Option.some.inj (hc.symm.trans hc')
        rcases hplace with ⟨rfl, hplace⟩ | ⟨hj, _⟩
        · exact Or.inr ⟨rfl, ((hahead c (h.content_ok hc)).1 hplace).1⟩
        · exact Or.inl hj
      · intro c hc
        have hr' : ({ sc₁ with it := some it'' } : CiScanCtx).currentRange = some r := hr
        rw [aheadInRange_iff h hr' hat' hc, and_comm, ← hplaces]
        exact and_congr_right fun habove => head_takeWhile_iff h hrange split hc habove

end Secondary
