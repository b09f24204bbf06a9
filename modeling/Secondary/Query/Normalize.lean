import Secondary.Cast
import Secondary.TypeSafe

/-!
# Query.Normalize — `query_normalize.c`, checking a query against the columns

Each constant of a query is cast to the type of its column, and a query with a constant that cannot
be cast is rejected, as is one with a property that is no column.  `siQueryNormalize` returns the
error and the query with the constants that were cast up to there.
-/

namespace Secondary

open Lib

/-! ## The code -/

inductive SIQueryError
  | ok
  | invalidProperty
  | invalidValue
  | parseError
  deriving DecidableEq, Repr

/-- Nothing where it returns 0, and the value is left as it was. -/
def castPredicateValue (env : CastEnv) (v : SIValue) (t : SIType) : Option SIValue :=
  match v.type with
  -- For inf we do nothing.
  | .inf => some v
  | .negInf => some v
  | .int64 => siLongValCast v t
  | .bool => some v
  | .double => siDoubleValCast env v t
  | .string => siStringValCast env v t
  | _ => none

/-- The loop of `PRED_IN`: the values, and `typeMatch` behind the loop.  It stops at the first value
that cannot be cast. -/
def castValues (env : CastEnv) (t : SIType) : Bool → List SIValue → Bool × List SIValue
  | typeMatch, [] => (typeMatch, [])
  | _, v :: vs =>
      match castPredicateValue env v t with
      | none => (false, v :: vs)
      | some w =>
          let r := castValues env t true vs
          (r.1, w :: r.2)

/-- The `switch` of `validatePredicate`: `typeMatch`, and the predicate with its constants cast. -/
def castPredicate (env : CastEnv) (t : SIType) (p : SIPredicateType) : Bool × SIPredicateType :=
  match p with
  | .eq v =>
      match castPredicateValue env v t with
      | none => (false, p)
      | some w => (true, .eq w)
  | .ne v =>
      match castPredicateValue env v t with
      | none => (false, p)
      | some w => (true, .ne w)
  | .inList vals =>
      let r := castValues env t false vals
      (r.1, .inList r.2)
  | .rng min max minExclusive maxExclusive =>
      match castPredicateValue env min t with
      | none => (false, p)
      | some min' =>
          match castPredicateValue env max t with
          | none => (false, .rng min' max minExclusive maxExclusive)
          | some max' => (true, .rng min' max' minExclusive maxExclusive)
  -- There is no case for `PRED_ISNULL`.
  | .isNull _ => (false, p)

def validatePredicate (env : CastEnv) (spec : SISpec) (pred : SIPredicate) :
    Exec (SIQueryError × SIPredicate) :=
  if pred.propId < 0 ∨ (spec.numProps : Int) ≤ pred.propId then
    .ok (.invalidProperty, pred)
  else do
    let prop ← orFault spec.properties[pred.propId.toNat]? .bounds
    let r := castPredicate env prop.type pred.t
    .ok (if r.1 then .ok else .invalidValue, { pred with t := r.2 })

/-- The id that is given to a logic node.  Nothing reads it. -/
def markSamePropertyLogicNodes : SIQueryNode → Exec Int
  | .null => .error .null
  | .pred false pred => .ok pred.propId
  -- A predicate that is passed through has neither of the two types, and is read as a logic node.
  | .pred true _ => .error .member
  | .logic _ _ left right => do
      let lid ← markSamePropertyLogicNodes left
      let rid ← markSamePropertyLogicNodes right
      .ok (if (lid = rid ∧ lid ≠ -2) ∨ rid = -2 ∨ lid = -2 then
        if lid ≠ -2 then lid else rid
      else
        -1)

def validateNode (env : CastEnv) (spec : SISpec) : SIQueryNode → Exec (SIQueryError × SIQueryNode)
  | .null => .error .null
  | .pred false pred => do
      let r ← validatePredicate env spec pred
      .ok (r.1, .pred false r.2)
  | .pred true _ => .error .member
  | .logic passthru op left right => do
      let l ← validateNode env spec left
      if l.1 ≠ .ok then
        .ok (l.1, .logic passthru op l.2 right)
      else do
        let r ← validateNode env spec right
        .ok (r.1, .logic passthru op l.2 r.2)

def siQueryNormalize (env : CastEnv) (q : SIQuery) (spec : SISpec) :
    Exec (SIQueryError × SIQuery) := do
  let _ ← markSamePropertyLogicNodes q.root
  let r ← validateNode env spec q.root
  .ok (r.1, { q with root := r.2 })

/-! ## Well-typed queries -/

/-- What a query may compare a column of type `t` with: a value of exactly that type, or an
infinity. -/
def SIValue.Matches (t : SIType) (v : SIValue) : Prop :=
  v.type = t ∨ v = .inf ∨ v = .negInf

instance (t : SIType) : DecidablePred (SIValue.Matches t) := fun v =>
  inferInstanceAs (Decidable (v.type = t ∨ v = .inf ∨ v = .negInf))

theorem SIValue.Matches.comparable {t : SIType} {v : SIValue} (h : v.Matches t) :
    v.Comparable t := by
  rcases h with h | h | h
  · exact Or.inr (Or.inr (Or.inr h))
  · exact Or.inr (Or.inl h)
  · exact Or.inr (Or.inr (Or.inl h))

/-- The property of the predicate is a column, whose type is as `P` says. -/
def SIPredicate.OnType (spec : SISpec) (P : SIType → SIPredicateType → Prop) (p : SIPredicate) :
    Prop :=
  0 ≤ p.propId ∧ ∃ t, spec.types[p.propId.toNat]? = some t ∧ P t p.t

/-- The property is a column, and every constant is of its type or infinite. -/
def SIPredicate.WellTyped (spec : SISpec) : SIPredicate → Prop :=
  SIPredicate.OnType spec fun t p => ∀ v ∈ p.constants, v.Matches t

/-- The comparator of the column may be applied to the constants of a well-typed predicate. -/
theorem SIPredicate.WellTyped.ofColumn {spec : SISpec} {p : SIPredicate} (h : p.WellTyped spec) :
    p.OfColumn spec.types := by
  obtain ⟨_, t, ht, hconstants⟩ := h
  intro _ t' ht' v hv
  obtain rfl : t = t' := Option.some.inj (ht.symm.trans ht')
  exact (hconstants v hv).comparable

/-! ## What is accepted -/

/-- A constant that the query may have on a column of type `t`. -/
def Castable (env : CastEnv) (t : SIType) : SIValue → Prop
  | .inf => True
  | .negInf => True
  | .bool _ => True
  | .int64 _ => ColumnType t
  | .double _ => ColumnType t
  -- The string has to be the text of a value of the column.
  | .string s => t = .string ∨ (siParseValue env.strtod t s).isSome
  | _ => False

/-- The predicate has a constant, and every constant can be cast; `IS NULL` is never accepted. -/
def CastableAll (env : CastEnv) (t : SIType) : SIPredicateType → Prop
  | .isNull _ => False
  | p => p.constants ≠ [] ∧ ∀ v ∈ p.constants, Castable env t v

/-- No truth value is compared with a column of another type. -/
def NoForeignBool (t : SIType) (p : SIPredicateType) : Prop :=
  ∀ v ∈ p.constants, v.type = .bool → t = .bool

/-- Every leaf is a predicate that is not passed through, and is as `P` says. -/
def ActiveLeaves (P : SIPredicate → Prop) : SIQueryNode → Prop
  | .null => False
  | .pred passthru p => passthru = false ∧ P p
  | .logic _ _ left right => ActiveLeaves P left ∧ ActiveLeaves P right

theorem ActiveLeaves.mono {P Q : SIPredicate → Prop} (h : ∀ p, P p → Q p) {n : SIQueryNode} :
    ActiveLeaves P n → ActiveLeaves Q n := by
  induction n with
  | null => exact id
  | pred passthru p => exact fun hp => ⟨hp.1, h p hp.2⟩
  | logic passthru op left right ihl ihr => exact fun hp => ⟨ihl hp.1, ihr hp.2⟩

section Spec

variable {env : CastEnv} {spec : SISpec} {t : SIType}

theorem castPredicateValue_isSome {v : SIValue} :
    (castPredicateValue env v t).isSome ↔ Castable env t v := by
  cases v with
  | int64 i => exact siLongValCast_isSome i
  | double d => exact siDoubleValCast_isSome d
  | string s => cases t <;> simp [castPredicateValue, siStringValCast, Castable, SIValue.type]
  | _ => simp [castPredicateValue, Castable, SIValue.type]

/-- A cast makes a value of the column, unless it is that of a truth value, which it leaves alone. -/
theorem castPredicateValue_matches {v w : SIValue} (h : castPredicateValue env v t = some w) :
    w.Matches t ↔ (v.type = .bool → t = .bool) := by
  have hother : ∀ {v w : SIValue}, w.type = t → v.type ≠ .bool →
      (w.Matches t ↔ (v.type = .bool → t = .bool)) := fun hw hv =>
    iff_of_true (Or.inl hw) fun hbool => absurd hbool hv
  cases v with
  | int64 i =>
      have hcast : siLongValCast (.int64 i) t = some w := h
      exact hother (siLongValCast_type hcast) (by simp [SIValue.type])
  | double d =>
      have hcast : siDoubleValCast env (.double d) t = some w := h
      exact hother (siDoubleValCast_type hcast) (by simp [SIValue.type])
  | string s =>
      have hcast : siStringValCast env (.string s) t = some w := h
      exact hother (siStringValCast_type hcast) (by simp [SIValue.type])
  | bool b =>
      obtain rfl := Option.some.inj h
      simp [SIValue.Matches, SIValue.type, eq_comm]
  | inf =>
      obtain rfl := Option.some.inj h
      simp [SIValue.Matches, SIValue.type]
  | negInf =>
      obtain rfl := Option.some.inj h
      simp [SIValue.Matches, SIValue.type]
  | _ => cases h

theorem castPredicateValue_none {v : SIValue} (h : castPredicateValue env v t = none) :
    ¬Castable env t v := by
  rw [← castPredicateValue_isSome, h]
  simp

theorem castPredicateValue_some {v w : SIValue} (h : castPredicateValue env v t = some w) :
    Castable env t v := by
  rw [← castPredicateValue_isSome, h]
  rfl

variable (env t) in
/-- The loop ends with a match if there was one before it or there are values, and all can be
cast. -/
theorem castValues_spec (vs : List SIValue) (typeMatch : Bool) :
    ((castValues env t typeMatch vs).1 = true ↔
        (typeMatch = true ∨ vs ≠ []) ∧ ∀ v ∈ vs, Castable env t v) ∧
      ((castValues env t typeMatch vs).1 = true →
        ((∀ w ∈ (castValues env t typeMatch vs).2, w.Matches t) ↔
          ∀ v ∈ vs, v.type = .bool → t = .bool)) := by
  induction vs generalizing typeMatch with
  | nil => simp [castValues]
  | cons v vs ih =>
      cases hcast : castPredicateValue env v t with
      | none => simp [castValues, hcast, castPredicateValue_none hcast]
      | some w =>
          obtain ⟨hmatch, hvalues⟩ := ih true
          constructor
          · simp [castValues, hcast, hmatch, castPredicateValue_some hcast]
          · intro hrest
            simp only [castValues, hcast] at hrest ⊢
            simp only [List.mem_cons, forall_eq_or_imp, castPredicateValue_matches hcast,
              hvalues hrest]

variable (env t) in
/-- The `switch` accepts a predicate whose constants can all be cast, and what it makes of it is
well typed if no truth value is on a column of another type. -/
theorem castPredicate_spec (p : SIPredicateType) :
    ((castPredicate env t p).1 = true ↔ CastableAll env t p) ∧
      ((castPredicate env t p).1 = true →
        ((∀ w ∈ (castPredicate env t p).2.constants, w.Matches t) ↔ NoForeignBool t p)) := by
  cases p with
  | eq v | ne v =>
      -- One constant: the cast says whether it is castable, and what it is then.
      cases hcast : castPredicateValue env v t with
      | none =>
          simp [castPredicate, hcast, CastableAll, SIPredicateType.constants,
            castPredicateValue_none hcast]
      | some w =>
          simp [castPredicate, hcast, CastableAll, SIPredicateType.constants, NoForeignBool,
            castPredicateValue_some hcast, castPredicateValue_matches hcast]
  | rng min max minExclusive maxExclusive =>
      -- The upper end is cast only when the lower one was.
      cases hmin : castPredicateValue env min t with
      | none =>
          simp [castPredicate, hmin, CastableAll, SIPredicateType.constants,
            castPredicateValue_none hmin]
      | some min' =>
          cases hmax : castPredicateValue env max t with
          | none =>
              simp [castPredicate, hmin, hmax, CastableAll, SIPredicateType.constants,
                castPredicateValue_none hmax]
          | some max' =>
              simp [castPredicate, hmin, hmax, CastableAll, SIPredicateType.constants,
                NoForeignBool, castPredicateValue_some hmin, castPredicateValue_some hmax,
                castPredicateValue_matches hmin, castPredicateValue_matches hmax]
  | inList vals =>
      simpa [castPredicate, CastableAll, SIPredicateType.constants, NoForeignBool] using
        castValues_spec env t vals false
  | isNull v => simp [castPredicate, CastableAll]

variable (env spec) in
theorem validatePredicate_spec (p : SIPredicate) :
    ∃ r, validatePredicate env spec p = .ok r ∧
      (r.1 = .ok ↔ p.OnType spec (CastableAll env)) ∧
      (r.1 = .ok → (r.2.WellTyped spec ↔ p.OnType spec NoForeignBool)) := by
  by_cases hrange : p.propId < 0 ∨ (spec.numProps : Int) ≤ p.propId
  · -- A column that the schema does not have.
    refine ⟨_, if_pos hrange, iff_of_false (by simp) ?_, by simp⟩
    rintro ⟨hpos, t, ht, _⟩
    have hlt := (List.getElem?_eq_some_iff.1 ht).1
    simp only [SISpec.types, List.length_map] at hlt
    simp only [SISpec.numProps] at hrange
    omega
  · have hlt : p.propId.toNat < spec.properties.length := by
      simp only [SISpec.numProps] at hrange
      omega
    obtain ⟨prop, hprop⟩ : ∃ prop, spec.properties[p.propId.toNat]? = some prop :=
      ⟨_, List.getElem?_eq_getElem hlt⟩
    have htype : spec.types[p.propId.toNat]? = some prop.type := by
      simp [SISpec.types, hprop]
    have hon : ∀ P : SIType → SIPredicateType → Prop, ∀ q : SIPredicate, q.propId = p.propId →
        (q.OnType spec P ↔ P prop.type q.t) := by
      intro P q hq
      simp only [SIPredicate.OnType, hq, htype, Option.some.injEq, exists_eq_left',
        and_iff_right_iff_imp]
      omega
    -- On a column of the schema the verdict is the one of the casts.
    obtain ⟨hmatch, hconstants⟩ := castPredicate_spec env prop.type p.t
    refine ⟨_, by rw [validatePredicate, if_neg hrange, hprop]; rfl, ?_, ?_⟩
    · rw [hon _ p rfl, ← hmatch]
      cases (castPredicate env prop.type p.t).1 <;> simp
    · intro hok
      have hcast := hon (fun t p => ∀ v ∈ p.constants, v.Matches t)
        { p with t := (castPredicate env prop.type p.t).2 } rfl
      refine (hcast.trans (hconstants ?_)).trans (hon NoForeignBool p rfl).symm
      cases h : (castPredicate env prop.type p.t).1 with
      | true => rfl
      | false => simp [h] at hok

variable (env spec) in
/-- A tree with all its nodes is validated: it is accepted if every predicate is. -/
theorem validateNode_spec {n : SIQueryNode} (hn : ActiveLeaves (fun _ => True) n) :
    ∃ r, validateNode env spec n = .ok r ∧
      (r.1 = .ok ↔ ActiveLeaves (SIPredicate.OnType spec (CastableAll env)) n) ∧
      (r.1 = .ok → (ActiveLeaves (SIPredicate.WellTyped spec) r.2 ↔
        ActiveLeaves (SIPredicate.OnType spec NoForeignBool) n)) := by
  induction n with
  | null => exact hn.elim
  | pred passthru p =>
      obtain ⟨rfl, _⟩ := hn
      obtain ⟨r, hr, hok, htyped⟩ := validatePredicate_spec env spec p
      refine ⟨_, by rw [validateNode, hr]; rfl, ?_, ?_⟩
      · simpa [ActiveLeaves] using hok
      · simpa [ActiveLeaves] using htyped
  | logic passthru op left right ihl ihr =>
      obtain ⟨l, hl, hlok, hltyped⟩ := ihl hn.1
      by_cases hleft : l.1 = .ok
      · obtain ⟨r, hr, hrok, hrtyped⟩ := ihr hn.2
        refine ⟨(r.1, .logic passthru op l.2 r.2), by simp [validateNode, hl, hleft, hr], ?_, ?_⟩
        · exact hrok.trans ⟨fun h => ⟨hlok.1 hleft, h⟩, fun h => h.2⟩
        · exact fun hright => and_congr (hltyped hleft) (hrtyped hright)
      · refine ⟨(l.1, .logic passthru op l.2 right), by simp [validateNode, hl, hleft], ?_, ?_⟩
        · exact iff_of_false hleft fun h => hleft (hlok.2 h.1)
        · exact fun h => absurd h hleft

/-- The ids are given to the nodes of a tree that has all of them. -/
theorem markSamePropertyLogicNodes_ok_iff {n : SIQueryNode} :
    (∃ i, markSamePropertyLogicNodes n = .ok i) ↔ ActiveLeaves (fun _ => True) n := by
  induction n with
  | null => simp [markSamePropertyLogicNodes, ActiveLeaves]
  | pred passthru p => cases passthru <;> simp [markSamePropertyLogicNodes, ActiveLeaves]
  | logic passthru op left right ihl ihr =>
      rw [ActiveLeaves, ← ihl, ← ihr]
      simp only [markSamePropertyLogicNodes, bind_eq_ok]
      constructor
      · rintro ⟨_, lid, hlid, rid, hrid, _⟩
        exact ⟨⟨lid, hlid⟩, rid, hrid⟩
      · rintro ⟨⟨lid, hlid⟩, rid, hrid⟩
        exact ⟨_, lid, hlid, rid, hrid, rfl⟩

variable (env spec) in
/-- `SIQuery_Normalize` returns `QE_OK` exactly when every property is a column and every constant
can be cast; the query that it leaves is then well typed exactly when no truth value is compared
with a column of another type. -/
theorem siQueryNormalize_spec (q : SIQuery) :
    ((∃ q', siQueryNormalize env q spec = .ok (.ok, q')) ↔
        ActiveLeaves (SIPredicate.OnType spec (CastableAll env)) q.root) ∧
      ∀ q', siQueryNormalize env q spec = .ok (.ok, q') →
        (ActiveLeaves (SIPredicate.WellTyped spec) q'.root ↔
          ActiveLeaves (SIPredicate.OnType spec NoForeignBool) q.root) := by
  by_cases hn : ActiveLeaves (fun _ => True) q.root
  · obtain ⟨i, hi⟩ := markSamePropertyLogicNodes_ok_iff.2 hn
    obtain ⟨r, hr, hok, htyped⟩ := validateNode_spec env spec hn
    have hrun : siQueryNormalize env q spec = .ok (r.1, { q with root := r.2 }) := by
      simp [siQueryNormalize, hi, hr]
    constructor
    · rw [← hok]
      simp [hrun]
    · intro q' hq'
      obtain ⟨hq₁, rfl⟩ := Prod.mk.inj (Except.ok.inj (hrun.symm.trans hq'))
      exact htyped hq₁
  · have hfault : ∀ q', siQueryNormalize env q spec ≠ .ok (.ok, q') := by
      intro q' hq'
      obtain ⟨i, hi, _⟩ := bind_eq_ok.1 hq'
      exact hn (markSamePropertyLogicNodes_ok_iff.1 ⟨i, hi⟩)
    refine ⟨iff_of_false (fun ⟨q', hq'⟩ => hfault q' hq') fun h => hn ?_, fun q' hq' =>
      absurd hq' (hfault q')⟩
    exact h.mono fun _ _ => trivial

end Spec

/-! ## When the accepted query is well typed -/

/-- A tree whose leaves are all active has the leaves as well. -/
theorem ActiveLeaves.leaves {P : SIPredicate → Prop} {n : SIQueryNode} (h : ActiveLeaves P n) :
    Leaves P n := by
  induction n with
  | null => exact h
  | pred passthru p => exact h.2
  | logic passthru op left right ihl ihr => exact ⟨ihl h.1, ihr h.2⟩

/-- A normalized query is well typed exactly when it is rejected or compares no truth value with a
column of another type. -/
theorem siQueryNormalize_wellTyped_iff (env : CastEnv) (spec : SISpec) (q : SIQuery) :
    (∀ q', siQueryNormalize env q spec = .ok (.ok, q') →
        ActiveLeaves (SIPredicate.WellTyped spec) q'.root) ↔
      (ActiveLeaves (SIPredicate.OnType spec (CastableAll env)) q.root →
        ActiveLeaves (SIPredicate.OnType spec NoForeignBool) q.root) := by
  obtain ⟨haccepts, htyped⟩ := siQueryNormalize_spec env spec q
  rw [← haccepts]
  constructor
  · rintro h ⟨q', hq'⟩
    exact (htyped q' hq').1 (h q' hq')
  · intro h q' hq'
    exact (htyped q' hq').2 (h ⟨q', hq'⟩)

/-- A query that was normalized, without truth values on other columns, is run on every index of the
columns within the types of its tuples. -/
theorem typeSafe_of_siQueryNormalize {env : CastEnv} {idx : CompoundIndex} {q q' : SIQuery}
    (h : StoresTyped idx) (hnormal : siQueryNormalize env q idx.spec = .ok (.ok, q'))
    (hbool : ActiveLeaves (SIPredicate.OnType idx.spec NoForeignBool) q.root)
    (hne : Leaves (fun p => p.t.isNotEquals = false) q'.root) (hu : Unmarked q'.root)
    (hnum : q'.root.numLeaves ≤ q'.numPredicates) : TypeSafe idx q' := by
  have htyped := ((siQueryNormalize_spec env idx.spec q).2 q' hnormal).2 hbool
  have hfit : Leaves (SIPredicate.OfColumn idx.spec.types) q'.root :=
    htyped.leaves.mono fun p hp => hp.ofColumn
  exact typeSafe_of_ofColumn h hfit hne hu hnum

/-- A string column. -/
def stringSpec : SISpec where
  properties := [{ type := .string, flags := 0, name := none }]
  flags := 0

/-- `$1 = TRUE` -/
def columnIsTrue : SIQuery where
  root := siPredEquals 0 (.bool 1)
  numPredicates := 1

/-- `$1 = TRUE` is accepted for a string column, with the truth value in it. -/
theorem siQueryNormalize_not_wellTyped :
    ¬∀ (env : CastEnv) (spec : SISpec) (q q' : SIQuery),
      siQueryNormalize env q spec = .ok (.ok, q') →
        ActiveLeaves (SIPredicate.WellTyped spec) q'.root := by
  intro h
  obtain ⟨_, _, t, ht, htyped⟩ := h
    { strtod := fun _ => { val := 0, failed := false, noDigits := true }, outOfRange := fun _ _ => 0 }
    stringSpec columnIsTrue columnIsTrue rfl
  obtain rfl : SIType.string = t := Option.some.inj ht
  exact absurd (htyped (.bool 1) (by simp [SIPredicateType.constants]))
    (by decide)

end Secondary
