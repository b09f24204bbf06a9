import Secondary.Selected

/-!
# PlanExact — a plan says what its tree says

A tree has a plan when an AND path leads to a predicate on the first column; the plan's ranges and
its filter together say what the tree says.  A single predicate, however, is read in one way when
it is scanned and in another when it is left for the filter: they differ on IN and on IS NULL.
-/

namespace Secondary

open Lib

/-! ## Planning does not fault -/

namespace SIQueryNode

/-- The number of predicates of a tree. -/
def numLeaves : SIQueryNode → Nat
  | .null => 0
  | .pred _ _ => 1
  | .logic _ _ left right => left.numLeaves + right.numLeaves

/-- `p` is reached from the root through AND nodes only. -/
inductive ReachedByAnd (p : SIPredicate) : SIQueryNode → Prop
  | here : ReachedByAnd p (.pred false p)
  | left {left right : SIQueryNode} (h : ReachedByAnd p left) :
      ReachedByAnd p (.logic false .opAnd left right)
  | right {left right : SIQueryNode} (h : ReachedByAnd p right) :
      ReachedByAnd p (.logic false .opAnd left right)

theorem reachedByAnd_iff {p : SIPredicate} {n : SIQueryNode} :
    ReachedByAnd p n ↔ .pred false p ∈ conjuncts n := by
  constructor
  · intro h
    induction h with
    | here => simp [conjuncts]
    | left _ ih => simp [conjuncts, ih]
    | right _ ih => simp [conjuncts, ih]
  · intro h
    induction n with
    | null => simp [conjuncts] at h
    | pred passthru p' =>
        cases passthru with
        | true => simp [conjuncts] at h
        | false =>
            obtain rfl : p = p' := by simpa [conjuncts] using h
            exact .here
    | logic passthru op left right ihl ihr =>
        cases passthru with
        | true => cases op <;> simp [conjuncts] at h
        | false =>
            cases op with
            | opOr => simp [conjuncts] at h
            | opAnd =>
                rcases List.mem_append.1 (show _ ∈ conjuncts left ++ conjuncts right from h) with
                  h | h
                · exact .left (ihl h)
                · exact .right (ihr h)

/-- A conjunct has a leaf of its own. -/
theorem length_conjuncts_le {P : SIPredicate → Prop} {n : SIQueryNode} (hn : Leaves P n) :
    (conjuncts n).length ≤ n.numLeaves := by
  induction n with
  | null => exact hn.elim
  | pred passthru p => cases passthru <;> simp [conjuncts, numLeaves]
  | logic passthru op left right ihl ihr =>
      have hpos : ∀ {m : SIQueryNode}, Leaves P m → 1 ≤ m.numLeaves := by
        intro m hm
        induction m with
        | null => exact hm.elim
        | pred passthru p => exact Nat.le_refl 1
        | logic passthru op left right ihl _ => exact Nat.le_add_right_of_le (ihl hm.1)
      have hl := ihl hn.1
      have hr := ihr hn.2
      have hl₁ := hpos hn.1
      cases passthru with
      | true => cases op <;> simp [conjuncts]
      | false =>
          cases op with
          | opOr =>
              simp only [conjuncts, numLeaves, Bool.false_eq_true, if_false, List.length_singleton]
              omega
          | opAnd =>
              simp only [conjuncts, numLeaves, Bool.false_eq_true, if_false, List.length_append]
              omega

end SIQueryNode

/-- The planner has room for the keys of as many columns as the tree has conjuncts. -/
theorem scanKeys_ok {numPredicates : Nat} :
    ∀ {props : Nat} {n : SIQueryNode} {keys : List (List SIPlanRangeKey)},
      keys.length + (conjuncts n).length ≤ numPredicates →
        ∃ r, scanKeys numPredicates props n keys = .ok r
  | 0, _, _, _ => ⟨_, rfl⟩
  | props + 1, n, keys, hroom => by
      cases hget : (getPredicate keys.length n).2 with
      | none => exact ⟨((getPredicate keys.length n).1, keys), by simp [scanKeys, hget]⟩
      | some p =>
          have hlen := length_conjuncts_getPredicate hget
          have hlt : keys.length < numPredicates := by omega
          -- Only a range of keys that is not the last goes on to the next column.
          rcases hranges : predicateToRanges p with ⟨_ | ka, last⟩
          · exact ⟨((getPredicate keys.length n).1, keys),
              by simp [scanKeys, hget, hlt, hranges]⟩
          · cases last with
            | true =>
                exact ⟨((getPredicate keys.length n).1, keys ++ [ka]),
                  by simp [scanKeys, hget, hlt, hranges]⟩
            | false =>
                have hroom' : (keys ++ [ka]).length +
                    (conjuncts (getPredicate keys.length n).1).length ≤ numPredicates := by
                  rw [List.length_append, List.length_singleton]
                  omega
                obtain ⟨r, hr⟩ : ∃ r, scanKeys numPredicates props (getPredicate keys.length n).1
                    (keys ++ [ka]) = .ok r := scanKeys_ok hroom'
                exact ⟨r, by simpa [scanKeys, hget, hlt, hranges] using hr⟩

/-- A tree has no plan when no conjunct is a predicate on the first column. -/
theorem scanned_eq_nil {types : List SIType} {n : SIQueryNode} (hn : QueryOk types n) :
    scanned types.length n = [] ↔ ¬∃ p, p.propId = 0 ∧ n.ReachedByAnd p := by
  have hreach : (∃ p, p.propId = 0 ∧ n.ReachedByAnd p) ↔
      ∃ a ∈ conjuncts n, isPredOn 0 a = true := by
    constructor
    · rintro ⟨p, hp, h⟩
      exact ⟨_, SIQueryNode.reachedByAnd_iff.1 h, by simp [isPredOn, hp]⟩
    · rintro ⟨a, ha, hon⟩
      obtain ⟨p, rfl, hp⟩ := pred_of_isPredOn hon
      exact ⟨p, hp, SIQueryNode.reachedByAnd_iff.2 ha⟩
  rw [hreach, scanned]
  cases hprops : types.length with
  | zero =>
      -- No column at all: then there is no predicate on one.
      have hno : ¬∃ a ∈ conjuncts n, isPredOn 0 a = true := by
        rintro ⟨a, ha, hon⟩
        obtain ⟨p, rfl, _⟩ := pred_of_isPredOn hon
        obtain ⟨_, t, ht, _⟩ := leaves_conjuncts hn _ ha
        have := (List.getElem?_eq_some_iff.1 ht).1
        omega
      simp [splitScan, hno]
  | succ props =>
      cases hfind : (conjuncts n).find? (isPredOn 0) with
      | none =>
          have hno := List.find?_eq_none.1 hfind
          constructor
          · rintro _ ⟨a, ha, hon⟩
            exact hno a ha hon
          · intro _
            simp [splitScan, hfind]
      | some a =>
          obtain ⟨p, rfl, _⟩ := pred_of_isPredOn (List.find?_some hfind)
          have hsome : ∃ a ∈ conjuncts n, isPredOn 0 a = true :=
            ⟨_, List.mem_of_find?_eq_some hfind, List.find?_some hfind⟩
          cases hrange : p.t.isRange <;> simp [splitScan, hfind, hrange, hsome]

theorem siBuildQueryPlan_ok {P : SIPredicate → Prop} {q : SIQuery} {spec : SISpec}
    (hn : Leaves P q.root) (hne : Leaves (fun p => p.t.isNotEquals = false) q.root)
    (hu : Unmarked q.root) (hnum : q.root.numLeaves ≤ q.numPredicates) :
    ∃ q' plan, siBuildQueryPlan q spec = .ok (q', plan) ∧
      (plan = none ↔ scanned spec.types.length q.root = []) := by
  obtain ⟨r, hscan⟩ : ∃ r, scanKeys q.numPredicates spec.numProps q.root [] = .ok r :=
    scanKeys_ok (by simpa using Nat.le_trans (SIQueryNode.length_conjuncts_le hn) hnum)
  obtain ⟨q', plan, hrun, hnone, _⟩ := siBuildQueryPlan_run hn hne hu hscan
  exact ⟨q', plan, hrun, hnone⟩

/-! ## Exactness -/

/-- `SI_BuildQueryPlan` fails when no predicate on the first column is reached through AND nodes;
otherwise a tuple satisfies the tree when it is in one of the ranges and satisfies the filter. -/
theorem siBuildQueryPlan_exact {q : SIQuery} {spec : SISpec} {fs : List SIKeyCmpFunc}
    (hfs : CmpFuncsOf spec.types fs) (hq : Plannable spec.types q.root)
    (hnum : q.root.numLeaves ≤ q.numPredicates) :
    ∃ q' plan, siBuildQueryPlan q spec = .ok (q', plan) ∧
      (plan = none ↔ ¬∃ p, p.propId = 0 ∧ q.root.ReachedByAnd p) ∧
      ∀ pl ∈ plan, ∀ k, KeyOk spec.types k →
        (Satisfies fs k q.root ↔
          (∃ r ∈ pl.ranges, NotBelow fs r k ∧ NotAbove fs r k) ∧
            ∀ t ∈ pl.filterTree, Satisfies fs k t) := by
  obtain ⟨q', plan, hrun, hnone⟩ := siBuildQueryPlan_ok hq.typed hq.noNotEquals hq.unmarked hnum
  refine ⟨q', plan, hrun, hnone.trans (scanned_eq_nil hq.typed), ?_⟩
  rintro pl hpl k hk
  obtain rfl : plan = some pl := hpl
  have hplan := siBuildQueryPlan_spec hq hrun
  have hsplit := (splitScan_spec spec.types.length 0 (conjuncts q.root)).2.2.2.2 _
    (leaves_conjuncts hq.typed)
  -- A range holds the tuple when it holds the places of its first columns.
  have hscan : (∃ r ∈ pl.ranges, NotBelow fs r k ∧ NotAbove fs r k) ↔
      ∀ p ∈ scanned spec.types.length q.root, AtColumn PredHolds fs k p := by
    have hin : (∃ r ∈ pl.ranges, NotBelow fs r k ∧ NotAbove fs r k) ↔
        ∃ r ∈ pl.ranges, r.interval.Holds ((places k).take r.min.length) := by
      refine exists_congr fun r => and_congr_right fun hr => ?_
      rw [notBelow_iff hfs hk (hplan.bounds r hr), notAbove_iff hfs hk (hplan.bounds r hr)]
      rfl
    rw [hin, hplan.ranges (places k) (by simp [hk.length_eq])]
    refine forall_congr' fun p => forall_congr' fun hp => ?_
    exact (atColumn_iff (fun _ _ _ _ hf hv hp => predHolds_iff hf hv hp) hfs hk
      (hsplit.1 p hp)).symm
  have hsays : Satisfies fs k q.root ↔
      (∀ p ∈ scanned spec.types.length q.root, AtColumn PredHolds fs k p) ∧
        ∀ a ∈ filtered spec.types.length q.root, Satisfies fs k a := satisfies_iff_split
  rw [hscan, hsays]
  exact and_congr_right fun _ => (hplan.filter (AtColumn PredHolds fs k)).symm

/-- A conjunct that is scanned, and one that is left. -/
theorem siBuildQueryPlan_exact_int :
    CmpFuncsOf (oneColumn .int32 0).types [siCmpInt] ∧
      equalAndIn.root.numLeaves ≤ equalAndIn.numPredicates ∧
      ∃ q' plan, siBuildQueryPlan equalAndIn (oneColumn .int32 0) = .ok (q', plan) ∧
        (plan = none ↔ ¬∃ p, p.propId = 0 ∧ equalAndIn.root.ReachedByAnd p) ∧
        ∀ pl ∈ plan, ∀ k, KeyOk (oneColumn .int32 0).types k →
          (Satisfies [siCmpInt] k equalAndIn.root ↔
            (∃ r ∈ pl.ranges, NotBelow [siCmpInt] r k ∧ NotAbove [siCmpInt] r k) ∧
              ∀ t ∈ pl.filterTree, Satisfies [siCmpInt] k t) :=
  ⟨.cons rfl .nil, by decide,
    siBuildQueryPlan_exact (.cons rfl .nil) plannable_equalAndIn (by decide)⟩

/-! ## One predicate, scanned and filtered -/

/-- A value is in the range of a range key. -/
def RangeKeyHolds (f : SIKeyCmpFunc) (v : SIValue) (rk : SIPlanRangeKey) : Prop :=
  (∃ c, f v rk.min = .ok c ∧ (0 < c ∨ (c = 0 ∧ rk.minExclusive = false))) ∧
    ∃ c, f v rk.max = .ok c ∧ (c < 0 ∨ (c = 0 ∧ rk.maxExclusive = false))

/-- A value is in one of the ranges that `predicateToRanges` makes. -/
def InRanges (f : SIKeyCmpFunc) (v : SIValue) (p : SIPredicate) : Prop :=
  ∃ rks, (predicateToRanges p).1 = some rks ∧ ∃ rk ∈ rks, RangeKeyHolds f v rk

/-- When scanning and filtering by a predicate agree on a value. -/
def ScanFilterAgree (f : SIKeyCmpFunc) (v : SIValue) : SIPredicateType → Prop
  | .inList ws => (∃ w ∈ ws, f v w = .ok 0) → ∀ w ∈ ws, f v w = .ok 0
  | .isNull _ => v.isNull = false
  | _ => True

section Agree

variable {t : SIType} {f : SIKeyCmpFunc} {v : SIValue}

theorem rangeKeyHolds_equalTo {w : SIValue} :
    RangeKeyHolds f v (equalTo w) ↔ f v w = .ok 0 := by
  constructor
  · rintro ⟨⟨c, hc, hlow⟩, d, hd, hhigh⟩
    have hcd : c = d := Except.ok.inj (hc.symm.trans hd)
    have hzero : c = 0 := by
      rcases hlow with hlow | ⟨hlow, _⟩ <;> rcases hhigh with hhigh | ⟨hhigh, _⟩ <;> omega
    exact hc.trans (congrArg _ hzero)
  · intro h
    exact ⟨⟨0, h, Or.inr ⟨rfl, rfl⟩⟩, 0, h, Or.inr ⟨rfl, rfl⟩⟩

/-- The ranges of a predicate hold the values that it means, NaN or not. -/
theorem predHolds_iff_rangesOf (hf : cmpFuncOf t = .ok f) {p : SIPredicate}
    (hne : p.t.isNotEquals = false) (hnull : ∀ w, p.t = .isNull w → w = .null) :
    PredHolds f v p.t ↔ ∃ rk ∈ rangesOf p, RangeKeyHolds f v rk := by
  cases ht : p.t with
  | eq w => simp [PredHolds, rangesOf, predicateToRanges, ht, rangeKeyHolds_equalTo]
  | ne w =>
      rw [ht] at hne
      cases hne
  | rng min max minExclusive maxExclusive =>
      have hlow : ∀ c : Int, ¬(c < 0 ∨ (c = 0 ∧ minExclusive = true)) ↔
          0 < c ∨ (c = 0 ∧ minExclusive = false) := by
        intro c
        cases minExclusive <;> simp <;> omega
      have hhigh : ∀ c : Int, ¬(0 < c ∨ (c = 0 ∧ maxExclusive = true)) ↔
          c < 0 ∨ (c = 0 ∧ maxExclusive = false) := by
        intro c
        cases maxExclusive <;> simp <;> omega
      simp [PredHolds, rangesOf, predicateToRanges, ht, RangeKeyHolds, hlow, hhigh]
  | inList ws => simp [PredHolds, rangesOf, predicateToRanges, ht, rangeKeyHolds_equalTo]
  | isNull w =>
      obtain rfl := hnull w ht
      obtain ⟨values, hvalues⟩ := cmpFunc_special hf
      have hzero : f v .null = .ok 0 ↔ v.isNull = true := by
        cases hv : v.isNull <;> simp [hvalues, cmpSpecial, hv]
      simp [PredHolds, rangesOf, predicateToRanges, ht, rangeKeyHolds_equalTo, hzero]

/-- The ranges of a predicate hold the values that it means. -/
theorem inRanges_iff_predHolds (hf : cmpFuncOf t = .ok f) {p : SIPredicate} (hp : p.t.Fits t)
    (hne : p.t.isNotEquals = false) : InRanges f v p ↔ PredHolds f v p.t := by
  have hnull : ∀ w, p.t = .isNull w → w = .null := by
    intro w ht
    rw [ht] at hp
    exact hp
  simp [InRanges, predicateToRanges_eq hne, predHolds_iff_rangesOf hf hne hnull]

/-- The filter reads a predicate as it is meant, but for IN and IS NULL. -/
theorem filterHolds_iff_predHolds {p : SIPredicateType} (hne : p.isNotEquals = false) :
    (FilterHolds f v p ↔ PredHolds f v p) ↔ ScanFilterAgree f v p := by
  cases p with
  | eq w => simp [FilterHolds, ScanFilterAgree]
  | ne w => cases hne
  | rng min max minExclusive maxExclusive => simp [FilterHolds, ScanFilterAgree]
  | isNull w => simp [FilterHolds, PredHolds, ScanFilterAgree]
  | inList ws =>
      constructor
      · intro hiff hsome
        exact (hiff.2 hsome).2
      · intro hagree
        refine ⟨PredHolds.of_filter, fun hsome => ⟨?_, hagree hsome⟩⟩
        obtain ⟨w, hw, _⟩ := hsome
        exact List.ne_nil_of_mem hw

end Agree

/-- `evalPredicate` says of a value what the ranges of the predicate say if and only if the
predicate is not an IN that lists some values equal to it and some that are not, nor an IS NULL on
a NULL. -/
theorem scan_filter_agree_iff {types : List SIType} {fs : List SIKeyCmpFunc} {k : SIMultiKey}
    (hfs : CmpFuncsOf types fs) (hk : KeyOk types k) {p : SIPredicate} (hp : PredOk types p)
    (hne : p.t.isNotEquals = false) :
    ∃ f v b, fs[p.propId.toNat]? = some f ∧ k[p.propId.toNat]? = some v ∧
      evalPredicate p k fs = .ok b ∧
      ((b = true ↔ InRanges f v p) ↔ ScanFilterAgree f v p.t) := by
  obtain ⟨b, heval, hfilter⟩ := evalPredicate_spec hfs hk hp
  obtain ⟨hpos, t, ht, hfits⟩ := hp
  obtain ⟨f, v, hf, hv, hft, hvt⟩ := column hfs hk ht
  have hat : AtColumn FilterHolds fs k p ↔ FilterHolds f v p.t := by
    simp [AtColumn, hpos, hf, hv]
  refine ⟨f, v, b, hf, hv, heval, ?_⟩
  rw [hfilter, hat, inRanges_iff_predHolds hft hfits hne]
  exact filterHolds_iff_predHolds hne

/-- `$1 IN (1, 2)` -/
def oneOrTwo : SIPredicate where
  propId := 0
  t := .inList [.int32 1, .int32 2]

theorem predOk_oneOrTwo : PredOk [.int32] oneOrTwo := by
  refine ⟨by decide, .int32, rfl, ?_⟩
  intro w hw
  have htype : w.type = .int32 ∧ w.NotNaN := by
    simp only [List.mem_cons, List.not_mem_nil, or_false] at hw
    rcases hw with rfl | rfl <;> exact ⟨rfl, trivial⟩
  exact Or.inl (Or.inr htype)

/-- Both readings turn `3` down. -/
theorem scan_filter_agree_three :
    ∃ f v b, [siCmpInt][oneOrTwo.propId.toNat]? = some f ∧
      [SIValue.int32 3][oneOrTwo.propId.toNat]? = some v ∧
      evalPredicate oneOrTwo [.int32 3] [siCmpInt] = .ok b ∧
      ((b = true ↔ InRanges f v oneOrTwo) ↔ ScanFilterAgree f v oneOrTwo.t) :=
  scan_filter_agree_iff (.cons rfl .nil)
    (show KeyOk [.int32] [.int32 3] from .cons (Or.inr ⟨rfl, trivial⟩) .nil) predOk_oneOrTwo rfl

/-- The ranges hold `1`, and the filter turns it down. -/
theorem scan_filter_disagree_one :
    ∃ b, evalPredicate oneOrTwo [.int32 1] [siCmpInt] = .ok b ∧
      ¬(b = true ↔ InRanges siCmpInt (.int32 1) oneOrTwo) := by
  refine ⟨false, rfl, ?_⟩
  have hin : InRanges siCmpInt (.int32 1) oneOrTwo :=
    ⟨_, rfl, equalTo (.int32 1), by simp, ⟨0, rfl, Or.inr ⟨rfl, rfl⟩⟩, 0, rfl, Or.inr ⟨rfl, rfl⟩⟩
  simp [hin]

end Secondary
