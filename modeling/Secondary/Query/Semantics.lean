import Secondary.KeyOrder
import Secondary.Lib.Interval
import Secondary.Query.Basic

/-!
# Semantics — what a query tree says of a tuple

`Satisfies` is what a WHERE tree means.  `PassesFilter` is what `evalKey` makes of it: an IN that
is evaluated as a filter wants all its values to be equal, and an IS NULL is never true.
-/

namespace Secondary

open Lib

/-! ## Meaning -/

/-- What a predicate says of the value of its column. -/
def PredHolds (f : SIKeyCmpFunc) (v : SIValue) : SIPredicateType → Prop
  | .eq w => f v w = .ok 0
  | .ne w => f v w ≠ .ok 0
  | .rng min max minExclusive maxExclusive =>
      (∃ c, f v min = .ok c ∧ ¬(c < 0 ∨ (c = 0 ∧ minExclusive = true))) ∧
        ∃ c, f v max = .ok c ∧ ¬(0 < c ∨ (c = 0 ∧ maxExclusive = true))
  | .inList ws => ∃ w ∈ ws, f v w = .ok 0
  | .isNull _ => v.isNull = true

/-- What a predicate says of the value of its column when it is evaluated as a filter. -/
def FilterHolds (f : SIKeyCmpFunc) (v : SIValue) : SIPredicateType → Prop
  | .inList ws => ws ≠ [] ∧ ∀ w ∈ ws, f v w = .ok 0
  | .isNull _ => False
  | t => PredHolds f v t

/-- `P` holds of the comparator and the value of the column of `p`. -/
def AtColumn (P : SIKeyCmpFunc → SIValue → SIPredicateType → Prop) (fs : List SIKeyCmpFunc)
    (k : SIMultiKey) (p : SIPredicate) : Prop :=
  0 ≤ p.propId ∧ ∃ f v, fs[p.propId.toNat]? = some f ∧ k[p.propId.toNat]? = some v ∧ P f v p.t

/-- AND and OR over a meaning of the leaves; a node that is passed through is true. -/
def TreeHolds (P : SIPredicate → Prop) : SIQueryNode → Prop
  | .null => False
  | .pred passthru p => passthru = true ∨ P p
  | .logic passthru .opAnd left right => passthru = true ∨ (TreeHolds P left ∧ TreeHolds P right)
  | .logic passthru .opOr left right => passthru = true ∨ TreeHolds P left ∨ TreeHolds P right

def Satisfies (fs : List SIKeyCmpFunc) (k : SIMultiKey) : SIQueryNode → Prop :=
  TreeHolds (AtColumn PredHolds fs k)

def PassesFilter (fs : List SIKeyCmpFunc) (k : SIMultiKey) : SIQueryNode → Prop :=
  TreeHolds (AtColumn FilterHolds fs k)

theorem TreeHolds.mono {P Q : SIPredicate → Prop} (h : ∀ p, P p → Q p) {n : SIQueryNode} :
    TreeHolds P n → TreeHolds Q n := by
  induction n with
  | null => exact id
  | pred passthru p => exact Or.imp_right (h p)
  | logic passthru op left right ihl ihr =>
      cases op with
      | opAnd => exact Or.imp_right (And.imp ihl ihr)
      | opOr => exact Or.imp_right (Or.imp ihl ihr)

/-- A filter lets nothing pass that the tree does not say. -/
theorem PredHolds.of_filter {f : SIKeyCmpFunc} {v : SIValue} {t : SIPredicateType}
    (h : FilterHolds f v t) : PredHolds f v t := by
  cases t with
  | inList ws =>
      obtain ⟨hne, hall⟩ := h
      obtain ⟨w, hw⟩ := List.exists_mem_of_ne_nil ws hne
      exact ⟨w, hw, hall w hw⟩
  | isNull w => exact h.elim
  | eq w => exact h
  | ne w => exact h
  | rng min max minExclusive maxExclusive => exact h

theorem Satisfies.of_filter {fs : List SIKeyCmpFunc} {k : SIMultiKey} {n : SIQueryNode}
    (h : PassesFilter fs k n) : Satisfies fs k n :=
  h.mono fun _ hp => ⟨hp.1, by
    obtain ⟨f, v, hf, hv, h⟩ := hp.2
    exact ⟨f, v, hf, hv, .of_filter h⟩⟩

/-! ## Well-formed queries -/

/-- The constants of a predicate fit a column of type `t`. -/
def SIPredicateType.Fits (t : SIType) : SIPredicateType → Prop
  | .eq w => BoundOk t w
  | .ne w => BoundOk t w
  | .rng min max _ _ => BoundOk t min ∧ BoundOk t max
  | .inList ws => ∀ w ∈ ws, BoundOk t w
  | .isNull w => w = .null

def PredOk (types : List SIType) (p : SIPredicate) : Prop :=
  0 ≤ p.propId ∧ ∃ t, types[p.propId.toNat]? = some t ∧ p.t.Fits t

/-- No node is NULL, and `P` holds of all predicates. -/
def Leaves (P : SIPredicate → Prop) : SIQueryNode → Prop
  | .null => False
  | .pred _ p => P p
  | .logic _ _ left right => Leaves P left ∧ Leaves P right

@[simp] theorem leaves_pred {P : SIPredicate → Prop} {passthru : Bool} {p : SIPredicate} :
    Leaves P (.pred passthru p) ↔ P p := Iff.rfl

@[simp] theorem leaves_logic {P : SIPredicate → Prop} {passthru : Bool} {op : SILogicOperator}
    {left right : SIQueryNode} :
    Leaves P (.logic passthru op left right) ↔ Leaves P left ∧ Leaves P right := Iff.rfl

theorem Leaves.mono {P Q : SIPredicate → Prop} (h : ∀ p, P p → Q p) {n : SIQueryNode} :
    Leaves P n → Leaves Q n := by
  induction n with
  | null => exact id
  | pred passthru p => exact h p
  | logic passthru op left right ihl ihr => exact And.imp ihl ihr

/-- A tree of AND and OR nodes over predicates whose constants fit their columns. -/
abbrev QueryOk (types : List SIType) : SIQueryNode → Prop :=
  Leaves (PredOk types)

/-! ## Places -/

section Places

variable {t : SIType} {f : SIKeyCmpFunc} {v w : SIValue}

theorem cmp_eq_zero_iff (hf : cmpFuncOf t = .ok f) (hv : ValueOk t v) (hw : BoundOk t w) :
    f v w = .ok 0 ↔ v.place = w.place := by
  obtain ⟨c, hc, hsigns⟩ := cmpFunc_signs hf hv hw
  rw [hc, Except.ok.injEq, hsigns.2]

/-- `withinRange` computes the meaning of a range predicate. -/
theorem withinRange_spec {min max : SIValue} (minExclusive maxExclusive : Bool)
    (hf : cmpFuncOf t = .ok f) (hv : ValueOk t v) (hmin : BoundOk t min) (hmax : BoundOk t max) :
    ∃ b, withinRange f v min max minExclusive maxExclusive = .ok b ∧
      (b = true ↔ PredHolds f v (.rng min max minExclusive maxExclusive)) := by
  obtain ⟨c, hc, _⟩ := cmpFunc_signs hf hv hmin
  obtain ⟨d, hd, _⟩ := cmpFunc_signs hf hv hmax
  by_cases hlow : c < 0 ∨ (c = 0 ∧ minExclusive = true)
  · refine ⟨false, by simp [withinRange, hc, hlow], ?_⟩
    constructor
    · exact fun h => absurd h (by decide)
    · rintro ⟨⟨c', hc', hno⟩, _⟩
      obtain rfl : c = c' := Except.ok.inj (hc.symm.trans hc')
      exact absurd hlow hno
  · refine ⟨!decide (0 < d ∨ (d = 0 ∧ maxExclusive = true)), by simp [withinRange, hc, hd, hlow], ?_⟩
    rw [Bool.not_eq_true', decide_eq_false_iff_not]
    constructor
    · exact fun h => ⟨⟨c, hc, hlow⟩, d, hd, h⟩
    · rintro ⟨_, d', hd', hno⟩
      obtain rfl : d = d' := Except.ok.inj (hd.symm.trans hd')
      exact hno

theorem equalsAll_spec (hf : cmpFuncOf t = .ok f) (hv : ValueOk t v) :
    ∀ {ws : List SIValue}, (∀ w ∈ ws, BoundOk t w) →
      ∃ b, equalsAll f v ws = .ok b ∧ (b = true ↔ ∀ w ∈ ws, f v w = .ok 0) := by
  intro ws
  induction ws with
  | nil => exact fun _ => ⟨true, rfl, by simp⟩
  | cons w ws ih =>
      intro hws
      obtain ⟨c, hc, _⟩ := cmpFunc_signs hf hv (hws w (by simp))
      by_cases hzero : c = 0
      · obtain ⟨b, hb, hiff⟩ := ih fun x hx => hws x (List.mem_cons_of_mem _ hx)
        exact ⟨b, by simp [equalsAll, hc, hzero, hb], by simp [hc, hzero, hiff]⟩
      · exact ⟨false, by simp [equalsAll, hc, hzero], by simp [hc, hzero]⟩

end Places

/-! ## Evaluating -/

section Eval

variable {types : List SIType} {fs : List SIKeyCmpFunc} {k : SIMultiKey}

/-- The column of a predicate, in the types, the comparators and a tuple. -/
theorem column (hfs : CmpFuncsOf types fs) (hk : KeyOk types k) {i : Nat} {t : SIType}
    (ht : types[i]? = some t) :
    ∃ f v, fs[i]? = some f ∧ k[i]? = some v ∧ cmpFuncOf t = .ok f ∧ ValueOk t v := by
  obtain ⟨hi, hti⟩ := List.getElem?_eq_some_iff.1 ht
  have hif : i < fs.length := by rwa [← hfs.length_eq]
  have hik : i < k.length := by rwa [hk.length_eq]
  refine ⟨fs[i], k[i], by simp [hif], by simp [hik], ?_, ?_⟩
  · rw [← hti]
    exact List.Forall₂.get hfs hi hif
  · rw [← hti]
    exact List.Forall₂.get hk hi hik

theorem evalPredicate_spec (hfs : CmpFuncsOf types fs) (hk : KeyOk types k) {p : SIPredicate}
    (hp : PredOk types p) :
    ∃ b, evalPredicate p k fs = .ok b ∧ (b = true ↔ AtColumn FilterHolds fs k p) := by
  obtain ⟨hpos, t, ht, hfits⟩ := hp
  obtain ⟨f, v, hf, hv, hft, hvt⟩ := column hfs hk ht
  have hik : p.propId.toNat < k.length := (List.getElem?_eq_some_iff.1 hv).1
  have hin : ¬(p.propId < 0 ∨ (k.length : Int) ≤ p.propId) := by omega
  have hat : AtColumn FilterHolds fs k p ↔ FilterHolds f v p.t := by
    simp [AtColumn, hpos, hf, hv]
  rw [hat]
  cases hp : p.t with
  | eq w =>
      rw [hp] at hfits
      obtain ⟨c, hc, _⟩ := cmpFunc_signs hft hvt hfits
      exact ⟨decide (c = 0), by simp [evalPredicate, hin, hf, hv, hp, hc],
        by simp [FilterHolds, PredHolds, hc]⟩
  | ne w =>
      rw [hp] at hfits
      obtain ⟨c, hc, _⟩ := cmpFunc_signs hft hvt hfits
      exact ⟨decide (c ≠ 0), by simp [evalPredicate, hin, hf, hv, hp, hc],
        by simp [FilterHolds, PredHolds, hc]⟩
  | rng min max minExclusive maxExclusive =>
      rw [hp] at hfits
      obtain ⟨b, hb, hiff⟩ :=
        withinRange_spec minExclusive maxExclusive hft hvt hfits.1 hfits.2
      exact ⟨b, by simp [evalPredicate, hin, hf, hv, hp, hb], hiff⟩
  | inList ws =>
      rw [hp] at hfits
      obtain ⟨b, hb, hiff⟩ := equalsAll_spec hft hvt hfits
      refine ⟨b && !ws.isEmpty, by simp [evalPredicate, hin, hf, hv, hp, hb], ?_⟩
      simp [FilterHolds, hiff, and_comm]
  | isNull w => exact ⟨false, by simp [evalPredicate, hin, hf, hv, hp], by simp [FilterHolds]⟩

/-- `evalKey` computes what the tree says as a filter. -/
theorem evalKey_spec (hfs : CmpFuncsOf types fs) (hk : KeyOk types k) {n : SIQueryNode}
    (hn : QueryOk types n) : ∃ b, evalKey k fs n = .ok b ∧ (b = true ↔ PassesFilter fs k n) := by
  induction n with
  | null => exact hn.elim
  | pred passthru p =>
      cases passthru with
      | true => exact ⟨true, by simp [evalKey], by simp [PassesFilter, TreeHolds]⟩
      | false =>
          obtain ⟨b, hb, hiff⟩ := evalPredicate_spec hfs hk hn
          exact ⟨b, by simp [evalKey, hb], by simpa [PassesFilter, TreeHolds] using hiff⟩
  | logic passthru op left right ihl ihr =>
      obtain ⟨l, hl, hliff⟩ := ihl hn.1
      obtain ⟨r, hr, hriff⟩ := ihr hn.2
      cases passthru with
      | true =>
          refine ⟨true, by simp [evalKey], ?_⟩
          cases op <;> simp [PassesFilter, TreeHolds]
      | false =>
          cases op with
          | opAnd =>
              refine ⟨l && r, ?_, ?_⟩
              · cases l <;> simp [evalKey, hl, hr]
              · rw [Bool.and_eq_true, hliff, hriff]
                simp [PassesFilter, TreeHolds]
          | opOr =>
              refine ⟨l || r, ?_, ?_⟩
              · cases l <;> simp [evalKey, hl, hr]
              · rw [Bool.or_eq_true, hliff, hriff]
                simp [PassesFilter, TreeHolds]

end Eval

/-! ## Meaning by places -/

/-- The interval of a range predicate. -/
def rangeInterval (min max : SIValue) (minExclusive maxExclusive : Bool) : LexInterval Place where
  lo := min.place
  hi := max.place
  loOpen := minExclusive
  hiOpen := maxExclusive

/-- `PredHolds` of a value at the place `x`. -/
def HoldsAt (x : Place) : SIPredicateType → Prop
  | .eq w => x = w.place
  | .ne w => x ≠ w.place
  | .rng min max minExclusive maxExclusive =>
      (rangeInterval min max minExclusive maxExclusive).Holds x
  | .inList ws => ∃ w ∈ ws, x = w.place
  | .isNull _ => x = SIValue.null.place

/-- `FilterHolds` of a value at the place `x`. -/
def FilterHoldsAt (x : Place) : SIPredicateType → Prop
  | .inList ws => ws ≠ [] ∧ ∀ w ∈ ws, x = w.place
  | .isNull _ => False
  | t => HoldsAt x t

section Places

variable {types : List SIType} {fs : List SIKeyCmpFunc} {k k' : SIMultiKey} {t : SIType}
  {f : SIKeyCmpFunc} {v w : SIValue} {p : SIPredicateType}

theorem isNull_iff_place (hf : cmpFuncOf t = .ok f) (hv : ValueOk t v) :
    v.isNull = true ↔ v.place = SIValue.null.place := by
  rcases hv with rfl | ⟨hvt, _⟩
  · simp
  · have ht : ColumnType t := by cases t <;> first | decide | cases hf
    obtain ⟨hrank, hnull, _, _⟩ := rank_of_type ht hvt
    have hne : v.place ≠ SIValue.null.place := by
      intro h
      have hranks : v.rank = SIValue.null.rank := congrArg (fun x => (ofLex x).1) h
      rw [hrank] at hranks
      cases hranks
    simp [hnull, hne]

theorem predHolds_iff (hf : cmpFuncOf t = .ok f) (hv : ValueOk t v) (hp : p.Fits t) :
    PredHolds f v p ↔ HoldsAt v.place p := by
  cases p with
  | eq w => exact cmp_eq_zero_iff hf hv hp
  | ne w => exact not_congr (cmp_eq_zero_iff hf hv hp)
  | rng min max minExclusive maxExclusive =>
      obtain ⟨c, hc, hcs⟩ := cmpFunc_signs hf hv hp.1
      obtain ⟨d, hd, hds⟩ := cmpFunc_signs hf hv hp.2
      simp only [PredHolds, HoldsAt, LexInterval.Holds, LexInterval.Below, LexInterval.Above,
        rangeInterval,
        hc, hd, Except.ok.injEq, exists_eq_left', hcs.1, hcs.2, hds.pos_iff, hds.2]
  | inList ws =>
      exact exists_congr fun w => and_congr_right fun hw => cmp_eq_zero_iff hf hv (hp w hw)
  | isNull w => exact isNull_iff_place hf hv

theorem filterHolds_iff (hf : cmpFuncOf t = .ok f) (hv : ValueOk t v) (hp : p.Fits t) :
    FilterHolds f v p ↔ FilterHoldsAt v.place p := by
  cases p with
  | inList ws =>
      exact and_congr_right fun _ =>
        forall_congr' fun w => forall_congr' fun hw => cmp_eq_zero_iff hf hv (hp w hw)
  | isNull w => exact Iff.rfl
  | eq w => exact predHolds_iff hf hv hp
  | ne w => exact predHolds_iff hf hv hp
  | rng min max minExclusive maxExclusive => exact predHolds_iff hf hv hp

/-- The place of the column of a predicate. -/
def AtPlace (Q : Place → SIPredicateType → Prop) (xs : List Place) (p : SIPredicate) : Prop :=
  ∃ x, xs[p.propId.toNat]? = some x ∧ Q x p.t

/-- A meaning that depends on the place alone. -/
theorem atColumn_iff {P : SIKeyCmpFunc → SIValue → SIPredicateType → Prop}
    {Q : Place → SIPredicateType → Prop}
    (hPQ : ∀ t f v p, cmpFuncOf t = .ok f → ValueOk t v → p.Fits t → (P f v p ↔ Q v.place p))
    (hfs : CmpFuncsOf types fs) (hk : KeyOk types k) {p : SIPredicate} (hp : PredOk types p) :
    AtColumn P fs k p ↔ AtPlace Q (places k) p := by
  obtain ⟨hpos, t, ht, hfits⟩ := hp
  obtain ⟨f, v, hf, hv, hft, hvt⟩ := column hfs hk ht
  have hplace : (places k)[p.propId.toNat]? = some v.place := by simp [places, hv]
  simp [AtColumn, AtPlace, hpos, hf, hv, hplace, hPQ t f v p.t hft hvt hfits]

theorem TreeHolds.congr {P Q : SIPredicate → Prop} (h : ∀ p, PredOk types p → (P p ↔ Q p)) :
    ∀ {n : SIQueryNode}, QueryOk types n → (TreeHolds P n ↔ TreeHolds Q n)
  | .null, hn => hn.elim
  | .pred _ p, hn => or_congr_right (h p hn)
  | .logic _ .opAnd _ _, hn =>
      or_congr_right (and_congr (TreeHolds.congr h hn.1) (TreeHolds.congr h hn.2))
  | .logic _ .opOr _ _, hn =>
      or_congr_right (or_congr (TreeHolds.congr h hn.1) (TreeHolds.congr h hn.2))

theorem passesFilter_iff (hfs : CmpFuncsOf types fs) (hk : KeyOk types k) {n : SIQueryNode}
    (hn : QueryOk types n) :
    PassesFilter fs k n ↔ TreeHolds (AtPlace FilterHoldsAt (places k)) n :=
  TreeHolds.congr
    (fun _ hp => atColumn_iff (fun _ _ _ _ hf hv hp => filterHolds_iff hf hv hp) hfs hk hp) hn

end Places

end Secondary
