import Secondary.Query.ParseSpec
import Secondary.Query.PlanExact

/-!
# Query.Types — the types of the values that a query compares

`checkedCmp` is the comparator of a column that refuses values of other types.  With it, a run of
the query code faults at the first comparator call that gets a value of the wrong type.
`Confuses` says when evaluating a tree on a tuple does, and `KeyHolds` what a scan range is on
tuples, whatever the types of its constants.
-/

namespace Secondary

open Lib

/-! ## Checked comparators -/

/-- The comparator `f` of a column of type `t`, faulting on values of other types. -/
def checkedCmp (t : SIType) (f : SIKeyCmpFunc) : SIKeyCmpFunc := fun v w =>
  if v.Comparable t ∧ w.Comparable t then f v w else .error .member

def checkedFuncs (types : List SIType) (fs : List SIKeyCmpFunc) : List SIKeyCmpFunc :=
  List.zipWith checkedCmp types fs

/-- What a column of type `t` stores. -/
def StoredValue (t : SIType) (v : SIValue) : Prop :=
  v = .null ∨ v.type = t

/-- A tuple as an index stores it. -/
def Stored (types : List SIType) (k : SIMultiKey) : Prop :=
  List.Forall₂ StoredValue types k

theorem StoredValue.comparable {t : SIType} {v : SIValue} (h : StoredValue t v) :
    v.Comparable t :=
  h.imp_right fun h => Or.inr (Or.inr h)

section Comparators

variable {t : SIType} {f : SIKeyCmpFunc} {v w : SIValue}

theorem placeLt_self (x : Option Int) : placeLt x x = false := by
  cases x <;> simp [placeLt]

/-- A stored value is equal to itself, a NaN too. -/
theorem cmp_self (hf : cmpFuncOf t = .ok f) (hv : StoredValue t v) : f v v = .ok 0 := by
  rcases hv with rfl | hv
  · obtain ⟨values, hvalues⟩ := cmpFunc_special hf
    simp [hvalues, cmpSpecial]
  · cases t with
    | null => cases hf
    | inf => cases hf
    | negInf => cases hf
    | string =>
        cases hf
        cases v <;> cases hv
        have hself : ∀ (n : Nat) (s : List UInt8), strncasecmp n s s = 0 := by
          intro n
          induction n with
          | zero => exact fun _ => rfl
          | succ n ih =>
              intro s
              cases s with
              | nil => rfl
              | cons a s => simp [strncasecmp, ih]
        simp [siCmpString, cmpSpecial, SIValue.isNull, SIValue.isInf, SIValue.isNegativeInf,
          SIValue.type, SIValue.stringval, hself]
    | _ =>
        cases hf
        cases v <;> cases hv
        simp [siCmpInt, siCmpLong, siCmpFloat, siCmpDouble, siCmpUint, siCmpTime, genericCmp,
          cmpSpecial, SIValue.isNull, SIValue.isInf, SIValue.isNegativeInf, SIValue.type,
          SIValue.intval, SIValue.longval, SIValue.floatval, SIValue.doubleval, SIValue.uintval,
          SIValue.timeval, placeLt_self]

theorem checkedCmp_member (hw : ¬w.Comparable t) : checkedCmp t f v w = .error .member :=
  if_neg fun h => hw h.2

/-- On values of the column the checked comparator is the comparator. -/
theorem checkedCmp_ok (hf : cmpFuncOf t = .ok f) (hv : v.Comparable t) (hw : w.Comparable t) :
    ∃ c, f v w = .ok c ∧ checkedCmp t f v w = .ok c := by
  obtain ⟨c, hc⟩ := cmpFunc_total hf hv hw
  exact ⟨c, hc, by rw [checkedCmp, if_pos ⟨hv, hw⟩, hc]⟩

end Comparators

/-! ## Evaluating a tree -/

/-- `x` faults at a value of the wrong type if `bad` holds, and otherwise returns whether `P`. -/
structure Outcome (x : Exec Bool) (bad P : Prop) : Prop where
  faults : bad → x = .error .member
  returns : ¬bad → ∃ b, x = .ok b ∧ (b = true ↔ P)

theorem Outcome.congr {x : Exec Bool} {bad bad' P P' : Prop} (h : Outcome x bad P)
    (hbad : bad ↔ bad') (hP : P ↔ P') : Outcome x bad' P' :=
  ⟨fun hb => h.faults (hbad.2 hb), fun hb =>
    let ⟨b, hx, hiff⟩ := h.returns fun hb' => hb (hbad.1 hb')
    ⟨b, hx, hiff.trans hP⟩⟩

/-- Evaluating the predicate on `v` compares `v` with the constant `w`. -/
def ComparedWith (f : SIKeyCmpFunc) (v w : SIValue) : SIPredicateType → Prop
  | .eq w' => w = w'
  | .ne w' => w = w'
  | .rng min max minExclusive _ =>
      w = min ∨ (w = max ∧ ∃ c, f v min = .ok c ∧ ¬(c < 0 ∨ (c = 0 ∧ minExclusive = true)))
  | .inList ws => ∃ before after, ws = before ++ w :: after ∧ ∀ x ∈ before, f v x = .ok 0
  | .isNull _ => False

/-- Evaluating the predicate on `v` compares `v` with a constant of the wrong type. -/
def ComparedWrong (t : SIType) (f : SIKeyCmpFunc) (v : SIValue) (p : SIPredicateType) : Prop :=
  ∃ w, ComparedWith f v w p ∧ ¬w.Comparable t

/-- Evaluating the tree on `k` compares a column with a constant of the wrong type.  The right side
of an AND is evaluated when the left one is true, that of an OR when it is not. -/
def Confuses (types : List SIType) (fs : List SIKeyCmpFunc) (k : SIMultiKey) : SIQueryNode → Prop
  | .null => False
  | .pred passthru p =>
      passthru = false ∧ ∃ t, types[p.propId.toNat]? = some t ∧
        AtColumn (fun f v => ComparedWrong t f v) fs k p
  | .logic passthru op left right =>
      passthru = false ∧
        (Confuses types fs k left ∨
          ((PassesFilter fs k left ↔ op = .opAnd) ∧ Confuses types fs k right))

/-- The same for trees that are evaluated one after the other while they are true. -/
def ConfusesInTurn (types : List SIType) (fs : List SIKeyCmpFunc) (k : SIMultiKey) :
    List SIQueryNode → Prop
  | [] => False
  | n :: ns => Confuses types fs k n ∨ (PassesFilter fs k n ∧ ConfusesInTurn types fs k ns)

section Leaf

variable {t : SIType} {f : SIKeyCmpFunc} {v : SIValue}

/-- One call of a comparator. -/
theorem outcome_cmp (hf : cmpFuncOf t = .ok f) (hv : StoredValue t v) (w : SIValue)
    (test : Int → Bool) :
    Outcome (checkedCmp t f v w >>= fun c => .ok (test c)) (¬w.Comparable t)
      (∃ c, f v w = .ok c ∧ test c = true) := by
  refine ⟨fun hbad => by rw [checkedCmp_member hbad, error_bind], fun hgood => ?_⟩
  obtain ⟨c, hc, hchecked⟩ := checkedCmp_ok hf hv.comparable (not_not.1 hgood)
  exact ⟨test c, by rw [hchecked, ok_bind], by simp [hc]⟩

/-- The loop of an IN, by induction on the list. -/
theorem outcome_equalsAll (hf : cmpFuncOf t = .ok f) (hv : StoredValue t v) :
    ∀ ws : List SIValue, Outcome (equalsAll (checkedCmp t f) v ws)
      (ComparedWrong t f v (.inList ws)) (∀ w ∈ ws, f v w = .ok 0)
  | [] => by
      refine ⟨?_, fun _ => ⟨true, rfl, by simp⟩⟩
      rintro ⟨w, ⟨before, after, hnil, _⟩, _⟩
      simp at hnil
  | w :: ws => by
      have ih := outcome_equalsAll hf hv ws
      by_cases hw : w.Comparable t
      · obtain ⟨c, hc, hchecked⟩ := checkedCmp_ok hf hv.comparable hw
        have hstep : equalsAll (checkedCmp t f) v (w :: ws) =
            if c ≠ 0 then .ok false else equalsAll (checkedCmp t f) v ws := by
          rw [equalsAll, hchecked, ok_bind]
        -- A wrong constant is behind `w`, and `w` is equal to the value.
        have hwrong : ComparedWrong t f v (.inList (w :: ws)) ↔
            c = 0 ∧ ComparedWrong t f v (.inList ws) := by
          constructor
          · rintro ⟨x, ⟨before, after, hsplit, hall⟩, hx⟩
            cases before with
            | nil =>
                obtain ⟨rfl, _⟩ := List.cons.inj hsplit
                exact absurd hw hx
            | cons y before =>
                obtain ⟨rfl, rfl⟩ := List.cons.inj hsplit
                have hzero := hall w (by simp)
                rw [hc, Except.ok.injEq] at hzero
                exact ⟨hzero, x, ⟨before, after, rfl,
                  fun z hz => hall z (List.mem_cons_of_mem _ hz)⟩, hx⟩
          · rintro ⟨rfl, x, ⟨before, after, rfl, hall⟩, hx⟩
            exact ⟨x, ⟨w :: before, after, rfl, List.forall_mem_cons.2 ⟨hc, hall⟩⟩, hx⟩
        rw [hstep]
        by_cases hzero : c = 0
        · rw [if_neg (not_not.2 hzero)]
          refine ⟨fun h => ih.faults (hwrong.1 h).2, fun h => ?_⟩
          obtain ⟨b, hb, hiff⟩ := ih.returns fun h' => h (hwrong.2 ⟨hzero, h'⟩)
          exact ⟨b, hb, by simp [hiff, hc, hzero]⟩
        · rw [if_pos hzero]
          exact ⟨fun h => absurd (hwrong.1 h).1 hzero, fun _ => ⟨false, rfl, by simp [hc, hzero]⟩⟩
      · refine ⟨fun _ => by rw [equalsAll, checkedCmp_member hw, error_bind], fun h => ?_⟩
        exact absurd ⟨w, ⟨[], ws, rfl, by simp⟩, hw⟩ h

theorem outcome_withinRange (hf : cmpFuncOf t = .ok f) (hv : StoredValue t v) (min max : SIValue)
    (minExclusive maxExclusive : Bool) :
    Outcome (withinRange (checkedCmp t f) v min max minExclusive maxExclusive)
      (ComparedWrong t f v (.rng min max minExclusive maxExclusive))
      (PredHolds f v (.rng min max minExclusive maxExclusive)) := by
  by_cases hmin : min.Comparable t
  · obtain ⟨c, hc, hchecked⟩ := checkedCmp_ok hf hv.comparable hmin
    by_cases hlow : c < 0 ∨ (c = 0 ∧ minExclusive = true)
    · -- The value is below the range, and the other end is not looked at.
      refine ⟨?_, fun _ => ⟨false, by simp [withinRange, hchecked, hlow], ?_⟩⟩
      · rintro ⟨w, rfl | ⟨rfl, d, hd, hno⟩, hw⟩
        · exact absurd hmin hw
        · obtain rfl := Except.ok.inj (hc.symm.trans hd)
          exact absurd hlow hno
      · simp only [PredHolds, hc, Except.ok.injEq, exists_eq_left', hlow]
        simp
    · -- The value is not below the range, so the verdict is the one of the upper end.
      have hrun : withinRange (checkedCmp t f) v min max minExclusive maxExclusive =
          checkedCmp t f v max >>= fun d =>
            .ok (!decide (0 < d ∨ (d = 0 ∧ maxExclusive = true))) := by
        rw [withinRange, hchecked, ok_bind, if_neg hlow]
      have hlast := outcome_cmp hf hv max fun d =>
        !decide (0 < d ∨ (d = 0 ∧ maxExclusive = true))
      rw [hrun]
      refine ⟨?_, fun hgood => ?_⟩
      · rintro ⟨w, rfl | ⟨rfl, _⟩, hw⟩
        · exact absurd hmin hw
        · exact hlast.faults hw
      · obtain ⟨b, hb, hiff⟩ := hlast.returns fun hbad =>
          hgood ⟨max, Or.inr ⟨rfl, c, hc, hlow⟩, hbad⟩
        refine ⟨b, hb, hiff.trans ?_⟩
        simp only [PredHolds, hc, Except.ok.injEq, exists_eq_left', hlow, not_false_iff, true_and,
          Bool.not_eq_true', decide_eq_false_iff_not]
  · -- The first comparison already reads the wrong member.
    refine ⟨fun _ => by rw [withinRange, checkedCmp_member hmin, error_bind], fun h => ?_⟩
    exact absurd ⟨min, Or.inl rfl, hmin⟩ h

end Leaf

section Trees

variable {types : List SIType} {fs : List SIKeyCmpFunc} {k : SIMultiKey}

/-- A column of a stored tuple, with its comparator and its checked one. -/
theorem stored_column (hfs : CmpFuncsOf types fs) (hk : Stored types k) {i : Nat}
    (hi : i < k.length) :
    ∃ t f v, types[i]? = some t ∧ fs[i]? = some f ∧ k[i]? = some v ∧
      (checkedFuncs types fs)[i]? = some (checkedCmp t f) ∧ cmpFuncOf t = .ok f ∧
      StoredValue t v := by
  have hit : i < types.length := by rwa [hk.length_eq]
  have hif : i < fs.length := by rwa [← hfs.length_eq]
  exact ⟨types[i], fs[i], k[i], by simp [hit], by simp [hif], by simp [hi],
    by simp [checkedFuncs, hit, hif], List.Forall₂.get hfs hit hif,
    List.Forall₂.get hk hit hi⟩

theorem evalPredicate_outcome (hfs : CmpFuncsOf types fs) (hk : Stored types k)
    (p : SIPredicate) :
    Outcome (evalPredicate p k (checkedFuncs types fs)) (Confuses types fs k (.pred false p))
      (AtColumn FilterHolds fs k p) := by
  by_cases hout : p.propId < 0 ∨ (k.length : Int) ≤ p.propId
  · -- No column of the tuple: the predicate is false.
    have hno : ∀ P, ¬AtColumn P fs k p := by
      rintro P ⟨hpos, f, v, _, hv, _⟩
      have := (List.getElem?_eq_some_iff.1 hv).1
      omega
    refine ⟨?_, fun _ => ⟨false, by rw [evalPredicate, if_pos hout], by simp [hno]⟩⟩
    rintro ⟨_, t, _, hat⟩
    exact absurd hat (hno _)
  · have hpos : 0 ≤ p.propId := by omega
    obtain ⟨t, f, v, ht, hf, hv, hchecked, hft, hvt⟩ :=
      stored_column hfs hk (i := p.propId.toNat) (by omega)
    have hat : ∀ P, AtColumn P fs k p ↔ P f v p.t := by
      intro P
      simp [AtColumn, hpos, hf, hv]
    have hwrong : Confuses types fs k (.pred false p) ↔ ComparedWrong t f v p.t := by
      simp [Confuses, ht, hat]
    rw [evalPredicate, if_neg hout, hchecked, hv, orFault_some, orFault_some, ok_bind, ok_bind, hat]
    refine Outcome.congr ?_ hwrong.symm Iff.rfl
    -- Each predicate compares the value with its constants, up to the first one that decides.
    cases p.t with
    | eq w =>
        exact (outcome_cmp hft hvt w fun c => decide (c = 0)).congr
          (by simp [ComparedWrong, ComparedWith]) (by simp [FilterHolds, PredHolds])
    | ne w =>
        refine ⟨?_, fun h => ?_⟩
        · rintro ⟨_, rfl, hw⟩
          exact (outcome_cmp hft hvt _ _).faults hw
        · obtain ⟨c, hc, hchecked⟩ := checkedCmp_ok hft hvt.comparable
            (not_not.1 fun hw : ¬w.Comparable t => h ⟨w, rfl, hw⟩)
          exact ⟨decide (c ≠ 0), by simp [hchecked], by simp [FilterHolds, PredHolds, hc]⟩
    | rng min max minExclusive maxExclusive =>
        exact outcome_withinRange hft hvt min max minExclusive maxExclusive
    | inList ws =>
        have hall := outcome_equalsAll hft hvt ws
        refine ⟨fun h => by simp [hall.faults h], fun h => ?_⟩
        obtain ⟨b, hb, hiff⟩ := hall.returns h
        exact ⟨b && !ws.isEmpty, by simp [hb], by simp [FilterHolds, hiff, and_comm]⟩
    | isNull w =>
        refine ⟨?_, fun _ => ⟨false, rfl, by simp [FilterHolds]⟩⟩
        rintro ⟨_, hw, _⟩
        exact hw.elim

/-- `evalKey` faults exactly where it confuses types; otherwise it says what the tree says as a
filter. -/
theorem evalKey_outcome (hfs : CmpFuncsOf types fs) (hk : Stored types k) {P : SIPredicate → Prop}
    {n : SIQueryNode} (hn : Leaves P n) :
    Outcome (evalKey k (checkedFuncs types fs) n) (Confuses types fs k n)
      (PassesFilter fs k n) := by
  induction n with
  | null => exact hn.elim
  | pred passthru p =>
      cases passthru with
      -- A marked node is true without being evaluated.
      | true => exact ⟨fun h => absurd h.1 (by simp), fun _ => ⟨true, rfl, by
          simp [PassesFilter, TreeHolds]⟩⟩
      | false => simpa [evalKey, PassesFilter, TreeHolds] using evalPredicate_outcome hfs hk p
  | logic passthru op left right ihl ihr =>
      cases passthru with
      | true =>
          refine ⟨fun h => absurd h.1 (by simp), fun _ => ⟨true, rfl, ?_⟩⟩
          cases op <;> simp [PassesFilter, TreeHolds]
      | false =>
          have hl := ihl hn.1
          have hr := ihr hn.2
          -- A fault on the left ends the evaluation.
          by_cases hleft : Confuses types fs k left
          · refine ⟨fun _ => by simp [evalKey, hl.faults hleft], fun h => ?_⟩
            exact absurd ⟨rfl, Or.inl hleft⟩ h
          · obtain ⟨b, hb, hbiff⟩ := hl.returns hleft
            have hwrong : Confuses types fs k (.logic false op left right) ↔
                (PassesFilter fs k left ↔ op = .opAnd) ∧ Confuses types fs k right := by
              simp [Confuses, hleft]
            rw [← hbiff] at hwrong
            by_cases hgo : b = true ↔ op = .opAnd
            · -- The right side is evaluated, and decides.
              have hrun : evalKey k (checkedFuncs types fs) (.logic false op left right) =
                  evalKey k (checkedFuncs types fs) right := by
                cases op <;> cases b <;> simp_all [evalKey]
              have hpass : PassesFilter fs k (.logic false op left right) ↔
                  PassesFilter fs k right := by
                have hleft : PassesFilter fs k left ↔ op = .opAnd := hbiff.symm.trans hgo
                rw [PassesFilter] at hleft
                cases op <;> simp_all [PassesFilter, TreeHolds]
              rw [hrun]
              refine ⟨fun h => hr.faults (hwrong.1 h).2, fun h => ?_⟩
              obtain ⟨r, hrr, hriff⟩ := hr.returns fun h' => h (hwrong.2 ⟨hgo, h'⟩)
              exact ⟨r, hrr, hriff.trans hpass.symm⟩
            · -- The left side has decided.
              have hrun : evalKey k (checkedFuncs types fs) (.logic false op left right) =
                  .ok b := by
                cases op <;> cases b <;> simp_all [evalKey]
              have hpass : b = true ↔ PassesFilter fs k (.logic false op left right) := by
                rw [PassesFilter] at hbiff
                cases op <;> cases b <;> simp_all [PassesFilter, TreeHolds]
              exact ⟨fun h => absurd (hwrong.1 h).1 hgo, fun _ => ⟨b, hrun, hpass⟩⟩

theorem confusesInTurn_append {as bs : List SIQueryNode} :
    ConfusesInTurn types fs k (as ++ bs) ↔
      ConfusesInTurn types fs k as ∨
        ((∀ a ∈ as, PassesFilter fs k a) ∧ ConfusesInTurn types fs k bs) := by
  induction as with
  | nil => simp [ConfusesInTurn]
  | cons a as ih =>
      simp only [List.cons_append, ConfusesInTurn, ih, List.forall_mem_cons]
      tauto

/-- A tree is evaluated as its conjuncts are, one after the other. -/
theorem confuses_iff_conjuncts {P : SIPredicate → Prop} {n : SIQueryNode} (hn : Leaves P n) :
    Confuses types fs k n ↔ ConfusesInTurn types fs k (conjuncts n) := by
  induction n with
  | null => exact hn.elim
  | pred passthru p => cases passthru <;> simp [Confuses, ConfusesInTurn, conjuncts]
  | logic passthru op left right ihl ihr =>
      cases passthru with
      | true => cases op <;> simp [Confuses, ConfusesInTurn, conjuncts]
      | false =>
          cases op with
          | opOr => simp [ConfusesInTurn, conjuncts]
          | opAnd =>
              have hleft : PassesFilter fs k left ↔ ∀ a ∈ conjuncts left, PassesFilter fs k a :=
                treeHolds_iff_conjuncts
              have hwrong : Confuses types fs k (.logic false .opAnd left right) ↔
                  Confuses types fs k left ∨
                    (PassesFilter fs k left ∧ Confuses types fs k right) := by
                simp [Confuses]
              have hconj : conjuncts (.logic false .opAnd left right) =
                  conjuncts left ++ conjuncts right := rfl
              rw [hwrong, hconj, confusesInTurn_append, ihl hn.1, ihr hn.2, hleft]

end Trees

/-! ## Keys against bounds -/

/-- The first columns can be compared with the constants of the bound. -/
def Fitting : List SIType → SIMultiKey → Prop
  | _, [] => True
  | [], _ :: _ => False
  | t :: ts, w :: ws => w.Comparable t ∧ Fitting ts ws

/-- On a bound that fits, the checked comparison is the comparison. -/
theorem siCmpMultiKey_checked {types : List SIType} {fs : List SIKeyCmpFunc} {k : SIMultiKey}
    (hfs : CmpFuncsOf types fs) (hk : Stored types k) {bound : SIMultiKey}
    (hb : Fitting types bound) :
    ∃ c, siCmpMultiKey fs k bound = .ok c ∧
      siCmpMultiKey (checkedFuncs types fs) k bound = .ok c := by
  induction hfs generalizing k bound with
  | nil =>
      cases bound with
      | nil => exact ⟨0, by simp [siCmpMultiKey], by simp [checkedFuncs, siCmpMultiKey]⟩
      | cons w ws => exact hb.elim
  | @cons t f types fs hf _ ih =>
      obtain _ | ⟨hv, hk⟩ := hk
      cases bound with
      | nil => exact ⟨0, by simp [siCmpMultiKey], by simp [checkedFuncs, siCmpMultiKey]⟩
      | cons w ws =>
          obtain ⟨c, hc, hchecked⟩ := checkedCmp_ok hf hv.comparable hb.1
          obtain ⟨d, hd, hrest⟩ := ih hk hb.2
          have hcons : checkedFuncs (t :: types) (f :: fs) =
              checkedCmp t f :: checkedFuncs types fs := rfl
          refine ⟨if c ≠ 0 then c else d, ?_, ?_⟩
          · simp only [siCmpMultiKey, hc, ok_bind, hd]
            split_ifs <;> rfl
          · simp only [hcons, siCmpMultiKey, hchecked, ok_bind, hrest]
            split_ifs <;> rfl

/-! ## Keys against ranges -/

/-- The values are in the ranges of the range keys, column by column. -/
def KeyHolds : List SIKeyCmpFunc → SIMultiKey → List SIPlanRangeKey → Prop
  | _, _, [] => True
  | f :: fs, v :: vs, rk :: rks => RangeKeyHolds f v rk ∧ KeyHolds fs vs rks
  | _, _, _ :: _ => False

theorem siPlanRangeOf_cons (rk rk' : SIPlanRangeKey) (rks : List SIPlanRangeKey) :
    siPlanRangeOf (rk :: rk' :: rks) =
      { min := rk.min :: (siPlanRangeOf (rk' :: rks)).min
        minExclusive := (siPlanRangeOf (rk' :: rks)).minExclusive
        max := rk.max :: (siPlanRangeOf (rk' :: rks)).max
        maxExclusive := (siPlanRangeOf (rk' :: rks)).maxExclusive } := rfl

/-- A tuple is in a scan range when its columns are in the ranges of the range keys.  A column in
front of the last one has a single value, so it is equal or decides both comparisons. -/
theorem inRange_iff_keyHolds :
    ∀ {ks : List SIPlanRangeKey} {fs : List SIKeyCmpFunc} {k : SIMultiKey}, PointKeys ks →
      ks.length ≤ fs.length → ks.length ≤ k.length →
        (NotBelow fs (siPlanRangeOf ks) k ∧ NotAbove fs (siPlanRangeOf ks) k ↔ KeyHolds fs k ks)
  | [], fs, k, _, _, _ => by
      have hcmp : siCmpMultiKey fs k [] = .ok 0 := by
        cases fs <;> cases k <;> rfl
      simp [NotBelow, NotAbove, siPlanRangeOf, hcmp, KeyHolds]
  | rk :: rks, [], k, _, hfs, _ => by simp at hfs
  | rk :: rks, f :: fs, [], _, _, hk => by simp at hk
  | [rk], f :: fs, v :: vs, _, _, _ => by
      have hone : ∀ w, siCmpMultiKey (f :: fs) (v :: vs) [w] = f v w := by
        intro w
        have hrest : siCmpMultiKey fs vs [] = .ok 0 := by
          cases fs <;> cases vs <;> rfl
        cases hw : f v w with
        | error e => simp [siCmpMultiKey, hw]
        | ok c =>
            simp only [siCmpMultiKey, hw, ok_bind, hrest]
            split_ifs <;> simp_all
      simp [NotBelow, NotAbove, siPlanRangeOf, hone, KeyHolds, RangeKeyHolds]
  | rk :: rk' :: rks, f :: fs, v :: vs, hpoints, hfs, hk => by
      obtain ⟨w, rfl⟩ := hpoints.1.resolve_left (by simp)
      have ih : NotBelow fs (siPlanRangeOf (rk' :: rks)) vs ∧
          NotAbove fs (siPlanRangeOf (rk' :: rks)) vs ↔ KeyHolds fs vs (rk' :: rks) :=
        inRange_iff_keyHolds hpoints.2 (by simpa using hfs) (by simpa using hk)
      rw [siPlanRangeOf_cons, KeyHolds, rangeKeyHolds_equalTo, ← ih]
      cases hw : f v w with
      | error e => simp [NotBelow, equalTo, siCmpMultiKey, hw]
      | ok c =>
          by_cases hzero : c = 0
          · simp [NotBelow, NotAbove, equalTo, siCmpMultiKey, hw, hzero]
          · simp only [NotBelow, NotAbove, equalTo, siCmpMultiKey, hw, ok_bind, ne_eq, hzero,
              not_false_iff, if_true, Except.ok.injEq, exists_eq_left', false_and, or_false]
            exact iff_of_false (by omega) id

/-! ## Leaves of parsed queries -/

/-- What the grammar makes: no `!=`, no range from NULL on, and constants that are neither NULL nor
infinite. -/
def SIPredicateType.Parsed : SIPredicateType → Prop
  | .eq w => w.rank = 1
  | .ne _ => False
  | .rng min _ _ _ => min.isNull = false
  | .inList ws => ∀ w ∈ ws, w.rank = 1
  | .isNull w => w = .null

def SIPredicateType.constants : SIPredicateType → List SIValue
  | .eq w => [w]
  | .ne w => [w]
  | .rng min max _ _ => [min, max]
  | .inList ws => ws
  | .isNull w => [w]

/-- The constants of the predicate fit its column, if it is on one. -/
def SIPredicate.OfColumn (types : List SIType) (p : SIPredicate) : Prop :=
  0 ≤ p.propId → ∀ t, types[p.propId.toNat]? = some t → ∀ w ∈ p.t.constants, w.Comparable t

theorem SIPredicateType.Parsed.isNotEquals {p : SIPredicateType} (h : p.Parsed) :
    p.isNotEquals = false := by
  cases p with
  | ne w => exact h.elim
  | _ => rfl

theorem SIPredicateType.Parsed.isNull {p : SIPredicateType} (h : p.Parsed) (w : SIValue)
    (hp : p = .isNull w) : w = .null := by
  subst hp
  exact h

section Leaves

variable {types : List SIType} {fs : List SIKeyCmpFunc} {k : SIMultiKey} {t : SIType}
  {f : SIKeyCmpFunc} {v : SIValue}

/-- A stored tuple meets predicates on the columns from `col` on if and only if some choice of their
range keys holds its values. -/
theorem exists_keyHolds_iff (hfs : CmpFuncsOf types fs) (hk : Stored types k) :
    ∀ {ps : List SIPredicate} {col : Nat}, OnColumns col ps → (∀ p ∈ ps, p.t.Parsed) →
      col + ps.length ≤ types.length →
        ((∃ ks, List.Forall₂ (· ∈ ·) ks (ps.map rangesOf) ∧
            KeyHolds (fs.drop col) (k.drop col) ks) ↔ ∀ p ∈ ps, AtColumn PredHolds fs k p)
  | [], col, _, _, _ => by
      refine iff_of_true ⟨[], .nil, ?_⟩ (by simp)
      rw [KeyHolds.eq_def]
      trivial
  | p :: ps, col, hcols, hp, hlen => by
      obtain ⟨hcol, hcols⟩ := hcols
      have hlt : col + (ps.length + 1) ≤ types.length := hlen
      have hik : col < k.length := by
        rw [← hk.length_eq]
        omega
      obtain ⟨t, f, v, ht, hf, hv, _, hft, hvt⟩ := stored_column hfs hk hik
      obtain ⟨hif, rfl⟩ := List.getElem?_eq_some_iff.1 hf
      obtain ⟨_, rfl⟩ := List.getElem?_eq_some_iff.1 hv
      have ih := exists_keyHolds_iff hfs hk hcols (fun q hq => hp q (List.mem_cons_of_mem _ hq))
        (by omega)
      have hnat : p.propId.toNat = col := by omega
      -- The predicate on this column holds iff one of its ranges holds the value.
      have hhead : AtColumn PredHolds fs k p ↔
          ∃ rk ∈ rangesOf p, RangeKeyHolds fs[col] k[col] rk := by
        rw [← predHolds_iff_rangesOf hft (hp p (by simp)).isNotEquals (hp p (by simp)).isNull]
        have hpos : 0 ≤ p.propId := by omega
        simp [AtColumn, hpos, hnat, hif, hik]
      rw [List.forall_mem_cons, ← ih, hhead, List.drop_eq_getElem_cons hif,
        List.drop_eq_getElem_cons hik, List.map_cons]
      constructor
      · rintro ⟨ks, hks, hholds⟩
        obtain _ | ⟨hmem, hks⟩ := hks
        exact ⟨⟨_, hmem, hholds.1⟩, _, hks, hholds.2⟩
      · rintro ⟨⟨rk, hmem, hrk⟩, rks, hrks, hholds⟩
        exact ⟨rk :: rks, .cons hmem hrks, hrk, hholds⟩

/-- The range keys of a predicate have its constants. -/
theorem constants_of_rangesOf {p : SIPredicate} {rk : SIPlanRangeKey} (h : rk ∈ rangesOf p) :
    rk.min ∈ p.t.constants ∧ rk.max ∈ p.t.constants := by
  cases hp : p.t with
  | eq w =>
      obtain rfl : rk = equalTo w := by simpa [rangesOf, predicateToRanges, hp] using h
      simp [SIPredicateType.constants, equalTo]
  | ne w => simp [rangesOf, predicateToRanges, hp] at h
  | rng min max minExclusive maxExclusive =>
      simp only [rangesOf, predicateToRanges, hp, Option.getD_some, List.mem_singleton] at h
      subst h
      simp [SIPredicateType.constants]
  | inList ws =>
      obtain ⟨w, hw, rfl⟩ : ∃ w ∈ ws, equalTo w = rk := by
        simpa [rangesOf, predicateToRanges, hp] using h
      simp [SIPredicateType.constants, equalTo, hw]
  | isNull w =>
      obtain rfl : rk = equalTo w := by simpa [rangesOf, predicateToRanges, hp] using h
      simp [SIPredicateType.constants, equalTo]

/-- The ends of the scan range of a choice fit the columns if the constants do. -/
theorem fitting_choice :
    ∀ {ps : List SIPredicate} {col : Nat} {ks : List SIPlanRangeKey}, OnColumns col ps →
      (∀ p ∈ ps, p.OfColumn types) → col + ps.length ≤ types.length →
        List.Forall₂ (· ∈ ·) ks (ps.map rangesOf) →
          Fitting (types.drop col) (ks.map SIPlanRangeKey.min) ∧
            Fitting (types.drop col) (ks.map SIPlanRangeKey.max)
  | [], col, ks, _, _, _, hks => by
      cases hks
      exact ⟨by rw [Fitting.eq_def]; trivial, by rw [Fitting.eq_def]; trivial⟩
  | p :: ps, col, ks, hcols, hp, hlen, hks => by
      obtain _ | ⟨hmem, hks⟩ := hks
      obtain ⟨hcol, hcols⟩ := hcols
      have hlt : col + (ps.length + 1) ≤ types.length := hlen
      have hit : col < types.length := by omega
      have hnat : p.propId.toNat = col := by omega
      obtain ⟨hmin, hmax⟩ := constants_of_rangesOf hmem
      have hcolumn := hp p (by simp) (by omega) types[col] (by simp [hnat, hit])
      obtain ⟨hmins, hmaxs⟩ := fitting_choice hcols
        (fun q hq => hp q (List.mem_cons_of_mem _ hq)) (by omega) hks
      rw [List.drop_eq_getElem_cons hit]
      exact ⟨⟨hcolumn _ hmin, hmins⟩, hcolumn _ hmax, hmaxs⟩

/-- The ends of all scan ranges of a tree fit if the constants of its scanned predicates do. -/
theorem fitting_range {n : SIQueryNode} (hp : ∀ p ∈ scanned types.length n, p.OfColumn types)
    {r : SIPlanRange} (hr : r ∈ buildKey ((scanned types.length n).map rangesOf) []) :
    Fitting types r.min ∧ Fitting types r.max := by
  obtain ⟨_, hcols, hlen, _, _⟩ := splitScan_spec types.length 0 (conjuncts n)
  obtain ⟨ks, hks, rfl⟩ := mem_buildKey.1 hr
  exact fitting_choice hcols hp (by rwa [Nat.zero_add]) hks

end Leaves

theorem parsed_of_leafOf {spec : Option SISpec} {pn : PredicateNode} {p : SIPredicate}
    (h : pn.Built) (hleaf : LeafOf spec pn p) : p.t.Parsed := by
  have hparsed : ∀ t : SIPredicateType, t.Parsed →
      toQueryNode pn = .ok (.pred false { propId := 0, t := t }) → p.t.Parsed := by
    intro t ht hnode
    have heq := Except.ok.inj (hleaf.1.symm.trans hnode)
    simp only [SIQueryNode.pred.injEq, SIPredicate.mk.injEq, true_and] at heq
    rwa [heq]
  cases h with
  | @comparison prop op w hop hw =>
      have hops : op = .EQ ∨ op = .NE ∨ op = .GT ∨ op = .GE ∨ op = .LT ∨ op = .LE := by
        simpa [comparisonOps] using hop
      rcases hops with rfl | rfl | rfl | rfl | rfl | rfl
      · exact hparsed (.eq w) hw rfl
      · cases hleaf.1
      · exact hparsed (.rng w .inf true false) (isNull_of_rank hw) rfl
      · exact hparsed (.rng w .inf false false) (isNull_of_rank hw) rfl
      · exact hparsed (.rng .negInf w false true) rfl rfl
      · exact hparsed (.rng .negInf w false false) rfl rfl
  | @like prop s =>
      by_cases hlast : s.bytes.getLast? = some 37
      · refine hparsed (.rng (.string s.bytes.dropLast) (.string (s.bytes.dropLast ++ [255])) false
          false) rfl ?_
        change likeQueryNode (.string s.bytes) = _
        rw [likeQueryNode, SIValue.stringval, ok_bind, if_pos hlast]
        rfl
      · refine hparsed (.eq (.string s.bytes)) rfl ?_
        change likeQueryNode (.string s.bytes) = _
        rw [likeQueryNode, SIValue.stringval, ok_bind, if_neg hlast]
        rfl
  | @isNull prop => exact hparsed (.isNull .null) rfl rfl
  | @inList prop ws hws => exact hparsed (.inList ws) hws rfl

/-- The query tree of a parse tree has a leaf for each predicate, and no marks. -/
theorem Translated.shape {P : PredicateNode → SIPredicate → Prop} {Q : SIPredicate → Prop}
    {n : ParseNode} {root : SIQueryNode} (h : Translated P n root)
    (hleaf : ∀ pn ∈ n.preds, ∀ p, P pn p → Q p) :
    Leaves Q root ∧ Unmarked root ∧ root.numLeaves = n.preds.length := by
  induction n generalizing root with
  | pred pn =>
      cases root with
      | pred passthru p => exact ⟨hleaf pn (List.mem_singleton_self pn) p h.2, h.1, rfl⟩
      | null => exact h.elim
      | logic _ _ _ _ => exact h.elim
  | cond left op right ihl ihr =>
      cases root with
      | logic passthru logicOp l r =>
          obtain ⟨hpass, _, hl, hr⟩ := h
          obtain ⟨hleavesl, hmarkl, hnuml⟩ :=
            ihl hl fun pn hpn => hleaf pn (List.mem_append_left _ hpn)
          obtain ⟨hleavesr, hmarkr, hnumr⟩ :=
            ihr hr fun pn hpn => hleaf pn (List.mem_append_right _ hpn)
          refine ⟨⟨hleavesl, hleavesr⟩, ⟨hpass, hmarkl, hmarkr⟩, ?_⟩
          rw [SIQueryNode.numLeaves, hnuml, hnumr, ParseNode.preds, List.length_append]
      | null => exact h.elim
      | pred _ _ => exact h.elim

/-- What a query is that `SI_ParseQuery` accepts. -/
theorem siParseQuery_shape {now : Int64} {strtod : List UInt8 → Strtod} {tok : Token}
    {query q : SIQuery} {str : List UInt8} {spec : Option SISpec} {msg : Option CString}
    (h : siParseQuery now strtod tok query str spec = .ok (true, q, msg)) :
    Leaves (fun p => p.t.Parsed) q.root ∧ Unmarked q.root ∧
      q.root.numLeaves ≤ q.numPredicates := by
  obtain ⟨⟨parsed, msg'⟩, hparse, h⟩ := bind_eq_ok.1 h
  cases parsed with
  | none => cases h
  | some n =>
      have hbuilt := built_of_parseQuery hparse
      obtain ⟨res, hres, h⟩ := bind_eq_ok.1 h
      obtain ⟨root, numPredicates⟩ := res
      cases h
      -- A `!=` would have stopped the translation.
      have hne : ∀ pn ∈ n.preds, pn.op ≠ .NE := by
        intro pn hpn hop
        cases hres.symm.trans (traverseNode_ne hbuilt ⟨pn, hpn, hop⟩ 0)
      obtain ⟨root', hrun, htree⟩ := traverseNode_ok spec hbuilt hne 0
      obtain ⟨rfl, rfl⟩ := Prod.mk.inj (Except.ok.inj (hres.symm.trans hrun))
      obtain ⟨hleaves, hmarks, hnum⟩ := htree.shape fun pn hpn p hleaf =>
        parsed_of_leafOf (hbuilt.of_mem hpn).1 hleaf
      exact ⟨hleaves, hmarks, (hnum.trans (Nat.zero_add _).symm).le⟩

end Secondary
