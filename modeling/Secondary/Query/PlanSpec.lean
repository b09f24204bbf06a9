import Secondary.Lib.Choices
import Secondary.Query.Plan
import Secondary.Query.Semantics

/-!
# PlanSpec — what the planner takes out of a tree and what it leaves

A tree is the conjunction of its `conjuncts`.  Column by column, `splitScan` takes the first
conjunct that is a predicate on the column, up to a column that has none or to a range predicate;
the conjuncts that are left are the filter.  `SI_BuildQueryPlan` does this on the tree itself, and
its scan ranges are the tuples that meet the predicates taken.
-/

namespace Secondary

open Lib

/-! ## Conjuncts -/

/-- The conditions that a tree is the conjunction of, from left to right. -/
def conjuncts : SIQueryNode → List SIQueryNode
  | .null => [.null]
  | .pred passthru p => if passthru then [] else [.pred false p]
  | .logic passthru .opAnd left right =>
      if passthru then [] else conjuncts left ++ conjuncts right
  | .logic passthru .opOr left right =>
      if passthru then [] else [.logic false .opOr left right]

theorem treeHolds_iff_conjuncts {P : SIPredicate → Prop} {n : SIQueryNode} :
    TreeHolds P n ↔ ∀ a ∈ conjuncts n, TreeHolds P a := by
  induction n with
  | null => simp [conjuncts]
  | pred passthru p => cases passthru <;> simp [conjuncts, TreeHolds]
  | logic passthru op left right ihl ihr =>
      cases op with
      | opOr => cases passthru <;> simp [conjuncts, TreeHolds]
      | opAnd =>
          cases passthru with
          | true => simp [conjuncts, TreeHolds]
          | false =>
              simp only [TreeHolds, Bool.false_eq_true, false_or, conjuncts, if_false,
                List.forall_mem_append, ihl, ihr]

theorem leaves_conjuncts {P : SIPredicate → Prop} {n : SIQueryNode} (h : Leaves P n) :
    ∀ a ∈ conjuncts n, Leaves P a := by
  induction n with
  | null => exact h.elim
  | pred passthru p =>
      cases passthru with
      | true => simp [conjuncts]
      | false => simpa [conjuncts] using h
  | logic passthru op left right ihl ihr =>
      cases passthru with
      | true => cases op <;> simp [conjuncts]
      | false =>
          cases op with
          | opOr => simpa [conjuncts] using h
          | opAnd =>
              intro a ha
              rcases List.mem_append.1 (show a ∈ conjuncts left ++ conjuncts right from ha) with
                ha | ha
              · exact ihl h.1 a ha
              · exact ihr h.2 a ha

/-- The conjunct is a predicate on the column `col`. -/
def isPredOn (col : Int) : SIQueryNode → Bool
  | .pred false p => decide (p.propId = col)
  | _ => false

theorem pred_of_isPredOn {col : Int} {a : SIQueryNode} (h : isPredOn col a = true) :
    ∃ p, a = .pred false p ∧ p.propId = col := by
  cases a with
  | null => cases h
  | logic passthru op left right => cases h
  | pred passthru p =>
      cases passthru with
      | true => cases h
      | false => exact ⟨p, rfl, by simpa [isPredOn] using h⟩

theorem getPredicate_none {col : Int} {n : SIQueryNode} (h : (getPredicate col n).2 = none) :
    (conjuncts n).find? (isPredOn col) = none ∧ (getPredicate col n).1 = n := by
  induction n with
  | null => exact ⟨rfl, rfl⟩
  | pred passthru p =>
      by_cases hp : passthru = false ∧ p.propId = col
      · simp [getPredicate, hp] at h
      · refine ⟨?_, by simp [getPredicate, hp]⟩
        cases passthru with
        | true => rfl
        | false =>
            have hcol : p.propId ≠ col := by simpa using hp
            simp [conjuncts, isPredOn, hcol]
  | logic passthru op left right ihl ihr =>
      by_cases hop : passthru = false ∧ op = .opAnd
      · obtain ⟨rfl, rfl⟩ := hop
        cases hl : (getPredicate col left).2 with
        | some p => simp [getPredicate, hl] at h
        | none =>
            obtain ⟨hfindl, heql⟩ := ihl hl
            have hr : (getPredicate col right).2 = none := by simpa [getPredicate, hl] using h
            obtain ⟨hfindr, heqr⟩ := ihr hr
            exact ⟨by simp [conjuncts, List.find?_append, hfindl, hfindr],
              by simp [getPredicate, hl, heql, heqr]⟩
      · refine ⟨?_, by simp [getPredicate, hop]⟩
        cases passthru with
        | true => cases op <;> rfl
        | false =>
            cases op with
            | opAnd => simp at hop
            | opOr => rfl

/-- A predicate that the planner finds is the first conjunct on its column, and the tree is left
without it. -/
theorem getPredicate_some {col : Int} {n : SIQueryNode} {p : SIPredicate}
    (h : (getPredicate col n).2 = some p) :
    (conjuncts n).find? (isPredOn col) = some (.pred false p) ∧
      conjuncts (getPredicate col n).1 = (conjuncts n).eraseP (isPredOn col) := by
  induction n with
  | null => cases h
  | pred passthru p' =>
      by_cases hp : passthru = false ∧ p'.propId = col
      · obtain ⟨rfl, hcol⟩ := hp
        obtain rfl : p' = p := by simpa [getPredicate, hcol] using h
        exact ⟨by simp [conjuncts, isPredOn, hcol],
          by simp [getPredicate, conjuncts, isPredOn, hcol]⟩
      · simp [getPredicate, hp] at h
  | logic passthru op left right ihl ihr =>
      by_cases hop : passthru = false ∧ op = .opAnd
      · obtain ⟨rfl, rfl⟩ := hop
        cases hl : (getPredicate col left).2 with
        | some p' =>
            -- The left branch has the predicate, and the right one is not looked at.
            obtain rfl : p' = p := by simpa [getPredicate, hl] using h
            obtain ⟨hfind, hconj⟩ := ihl hl
            have hmem := List.mem_of_find?_eq_some hfind
            have hpred := List.find?_some hfind
            refine ⟨by simp [conjuncts, List.find?_append, hfind], ?_⟩
            simp [getPredicate, hl, conjuncts, hconj, List.eraseP_append_left hpred _ hmem]
        | none =>
            -- Nothing on the left, which stays as it is.
            obtain ⟨hfindl, heql⟩ := getPredicate_none hl
            have hr : (getPredicate col right).2 = some p := by simpa [getPredicate, hl] using h
            obtain ⟨hfind, hconj⟩ := ihr hr
            have hleft : ∀ a ∈ conjuncts left, ¬isPredOn col a = true := by
              simpa using List.find?_eq_none.1 hfindl
            refine ⟨by simp [conjuncts, List.find?_append, hfindl, hfind], ?_⟩
            simp [getPredicate, hl, conjuncts, heql, hconj, List.eraseP_append_right _ hleft]
      · simp [getPredicate, hop] at h

/-- A predicate that the planner finds is a conjunct less. -/
theorem length_conjuncts_getPredicate {col : Int} {n : SIQueryNode} {p : SIPredicate}
    (h : (getPredicate col n).2 = some p) :
    (conjuncts (getPredicate col n).1).length + 1 = (conjuncts n).length := by
  obtain ⟨hfind, hconj⟩ := getPredicate_some h
  have hmem := List.mem_of_find?_eq_some hfind
  have hpos := List.length_pos_of_mem hmem
  rw [hconj, List.length_eraseP_of_mem hmem (List.find?_some hfind)]
  omega

theorem leaves_getPredicate {P : SIPredicate → Prop} (col : Int) {n : SIQueryNode}
    (h : Leaves P n) : Leaves P (getPredicate col n).1 := by
  induction n with
  | null => exact h
  | pred passthru p =>
      by_cases hp : passthru = false ∧ p.propId = col <;> simpa [getPredicate, hp] using h
  | logic passthru op left right ihl ihr =>
      by_cases hop : passthru = false ∧ op = .opAnd
      · cases hl : (getPredicate col left).2 with
        | some p => simpa [getPredicate, hop, hl] using And.intro (ihl h.1) h.2
        | none => simpa [getPredicate, hop, hl] using And.intro (ihl h.1) (ihr h.2)
      · simpa [getPredicate, hop] using h

/-! ## What is scanned and what is filtered -/

def SIPredicateType.isRange : SIPredicateType → Bool
  | .rng _ _ _ _ => true
  | _ => false

def SIPredicateType.isNotEquals : SIPredicateType → Bool
  | .ne _ => true
  | _ => false

/-- The predicates that are scanned, one for each column from `col` on, and the conjuncts that are
left.  There are `props` more columns; a range predicate is the last to be taken. -/
def splitScan : Nat → Nat → List SIQueryNode → List SIPredicate × List SIQueryNode
  | 0, _, as => ([], as)
  | props + 1, col, as =>
      match as.find? (isPredOn col) with
      | some (.pred _ p) =>
          if p.t.isRange then
            ([p], as.eraseP (isPredOn col))
          else
            let r := splitScan props (col + 1) (as.eraseP (isPredOn col))
            (p :: r.1, r.2)
      | _ => ([], as)

/-- The range keys of a predicate. -/
def rangesOf (p : SIPredicate) : List SIPlanRangeKey :=
  (predicateToRanges p).1.getD []

theorem predicateToRanges_eq {p : SIPredicate} (h : p.t.isNotEquals = false) :
    predicateToRanges p = (some (rangesOf p), p.t.isRange) := by
  cases hp : p.t <;> simp_all [predicateToRanges, rangesOf, SIPredicateType.isRange,
    SIPredicateType.isNotEquals]

/-- The loop of the planner splits the conjuncts of the tree. -/
theorem scanKeys_spec {numPredicates : Nat} :
    ∀ {props : Nat} {n n' : SIQueryNode} {keys keys' : List (List SIPlanRangeKey)},
      Leaves (fun p => p.t.isNotEquals = false) n →
        scanKeys numPredicates props n keys = .ok (n', keys') →
          keys' = keys ++ (splitScan props keys.length (conjuncts n)).1.map rangesOf ∧
            conjuncts n' = (splitScan props keys.length (conjuncts n)).2
  | 0, n, n', keys, keys', _, h => by
      obtain ⟨rfl, rfl⟩ : n = n' ∧ keys = keys' := by simpa [scanKeys] using h
      simp [splitScan]
  | props + 1, n, n', keys, keys', hn, h => by
      cases hget : (getPredicate keys.length n).2 with
      | none =>
          -- No conjunct on this column: the scan key ends here, and so does the split.
          obtain ⟨hfind, heq⟩ := getPredicate_none hget
          obtain ⟨rfl, rfl⟩ : n = n' ∧ keys = keys' := by simpa [scanKeys, hget, heq] using h
          simp [splitScan, hfind]
      | some p =>
          obtain ⟨hfind, hconj⟩ := getPredicate_some hget
          have hp : p.t.isNotEquals = false :=
            leaves_conjuncts hn _ (List.mem_of_find?_eq_some hfind)
          have hroom : keys.length < numPredicates := by
            by_contra hno
            simp [scanKeys, hget, hno] at h
          cases hrange : p.t.isRange with
          | true =>
              -- A range is the last column of the scan key.
              obtain ⟨rfl, rfl⟩ : (getPredicate keys.length n).1 = n' ∧
                  keys ++ [rangesOf p] = keys' := by
                simpa [scanKeys, hget, hroom, predicateToRanges_eq hp, hrange] using h
              simp [splitScan, hfind, hrange, hconj]
          | false =>
              -- The value of an equality is fixed, so the next column can narrow the scan too.
              have h' : scanKeys numPredicates props (getPredicate keys.length n).1
                  (keys ++ [rangesOf p]) = .ok (n', keys') := by
                simpa [scanKeys, hget, hroom, predicateToRanges_eq hp, hrange] using h
              have ih := scanKeys_spec (leaves_getPredicate _ hn) h'
              simpa [splitScan, hfind, hrange, hconj] using ih

/-! ## Marks -/

/-- No node is passed through. -/
def Unmarked : SIQueryNode → Prop
  | .null => True
  | .pred passthru _ => passthru = false
  | .logic passthru _ left right => passthru = false ∧ Unmarked left ∧ Unmarked right

/-- Only predicates are passed through, and only those that are not below an OR. -/
def MarkedInAnd : SIQueryNode → Prop
  | .null => True
  | .pred _ _ => True
  | .logic passthru .opAnd left right => passthru = false ∧ MarkedInAnd left ∧ MarkedInAnd right
  | .logic passthru .opOr left right => passthru = false ∧ Unmarked left ∧ Unmarked right

theorem Unmarked.markedInAnd {n : SIQueryNode} (h : Unmarked n) : MarkedInAnd n := by
  induction n with
  | null => trivial
  | pred passthru p => trivial
  | logic passthru op left right ihl ihr =>
      cases op with
      | opAnd => exact ⟨h.1, ihl h.2.1, ihr h.2.2⟩
      | opOr => exact h

theorem MarkedInAnd.getPredicate (col : Int) {n : SIQueryNode} (h : MarkedInAnd n) :
    MarkedInAnd (getPredicate col n).1 := by
  induction n with
  | null => exact h
  | pred passthru p =>
      by_cases hp : passthru = false ∧ p.propId = col <;>
        simp [Secondary.getPredicate, hp, MarkedInAnd]
  | logic passthru op left right ihl ihr =>
      cases op with
      | opOr => simpa [Secondary.getPredicate] using h
      | opAnd =>
          obtain ⟨rfl, hl, hr⟩ := h
          cases hget : (Secondary.getPredicate col left).2 with
          | some p => simpa [Secondary.getPredicate, hget, MarkedInAnd] using And.intro (ihl hl) hr
          | none =>
              simpa [Secondary.getPredicate, hget, MarkedInAnd] using And.intro (ihl hl) (ihr hr)

theorem scanKeys_marked {numPredicates : Nat} {P : SIPredicate → Prop} :
    ∀ {props : Nat} {n n' : SIQueryNode} {keys keys' : List (List SIPlanRangeKey)},
      Leaves P n → MarkedInAnd n → scanKeys numPredicates props n keys = .ok (n', keys') →
        Leaves P n' ∧ MarkedInAnd n' := by
  intro props
  induction props with
  | zero =>
      intro n n' keys keys' hn hm h
      obtain ⟨rfl, _⟩ : n = n' ∧ keys = keys' := by simpa [scanKeys] using h
      exact ⟨hn, hm⟩
  | succ props ih =>
      intro n n' keys keys' hn hm h
      have hn₁ := leaves_getPredicate keys.length hn
      have hm₁ := hm.getPredicate keys.length
      simp only [scanKeys] at h
      split at h
      · obtain ⟨rfl, _⟩ := Prod.mk.inj (Except.ok.inj h)
        exact ⟨hn₁, hm₁⟩
      · split at h
        · split at h
          · obtain ⟨rfl, _⟩ := Prod.mk.inj (Except.ok.inj h)
            exact ⟨hn₁, hm₁⟩
          · obtain ⟨rfl, _⟩ := Prod.mk.inj (Except.ok.inj h)
            exact ⟨hn₁, hm₁⟩
          · exact ih hn₁ hm₁ h
        · cases h

/-! ## Cleaning -/

theorem isPassthru_spec {P : SIPredicate → Prop} {n : SIQueryNode} (hn : Leaves P n) :
    ∃ b, n.isPassthru = .ok b ∧ (b = true → conjuncts n = []) := by
  cases n with
  | null => exact hn.elim
  | pred passthru p => exact ⟨passthru, rfl, fun h => by simp [conjuncts, h]⟩
  | logic passthru op left right =>
      refine ⟨passthru, rfl, fun h => ?_⟩
      cases op <;> simp [conjuncts, h]

/-- Nothing is taken out of a tree without marks. -/
theorem cleanQueryNode_unmarked {P : SIPredicate → Prop} {n : SIQueryNode} (hn : Leaves P n)
    (hm : Unmarked n) : cleanQueryNode n = .ok n ∧ n.isPassthru = .ok false := by
  induction n with
  | null => exact hn.elim
  | pred passthru p =>
      obtain rfl : passthru = false := hm
      exact ⟨rfl, rfl⟩
  | logic passthru op left right ihl ihr =>
      obtain ⟨rfl, hml, hmr⟩ := hm
      obtain ⟨hl, hlp⟩ := ihl hn.1 hml
      obtain ⟨hr, hrp⟩ := ihr hn.2 hmr
      exact ⟨by simp [cleanQueryNode, hl, hr, hlp, hrp], rfl⟩

/-- A cleaned tree has the conjuncts that it had before. -/
theorem cleanQueryNode_spec {P : SIPredicate → Prop} {n : SIQueryNode} (hn : Leaves P n)
    (hm : MarkedInAnd n) :
    ∃ n', cleanQueryNode n = .ok n' ∧ Leaves P n' ∧ conjuncts n' = conjuncts n := by
  induction n with
  | null => exact hn.elim
  | pred passthru p => exact ⟨_, rfl, hn, rfl⟩
  | logic passthru op left right ihl ihr =>
      cases op with
      | opOr =>
          -- Nothing below an OR is marked, so it stays as it is.
          obtain ⟨rfl, hml, hmr⟩ := hm
          obtain ⟨hl, hlp⟩ := cleanQueryNode_unmarked hn.1 hml
          obtain ⟨hr, hrp⟩ := cleanQueryNode_unmarked hn.2 hmr
          exact ⟨_, by simp [cleanQueryNode, hl, hr, hlp, hrp], hn, rfl⟩
      | opAnd =>
          obtain ⟨rfl, hml, hmr⟩ := hm
          obtain ⟨left', hl, hln, hlconj⟩ := ihl hn.1 hml
          obtain ⟨right', hr, hrn, hrconj⟩ := ihr hn.2 hmr
          obtain ⟨l, hlp, hlnil⟩ := isPassthru_spec hln
          obtain ⟨r, hrp, hrnil⟩ := isPassthru_spec hrn
          -- A side that is marked all through has no conjuncts, and goes.
          have hconj : conjuncts (.logic false .opAnd left right) =
              conjuncts left' ++ conjuncts right' := by
            simp [conjuncts, hlconj, hrconj]
          rw [hconj]
          cases l with
          | true =>
              cases r with
              | true =>
                  refine ⟨.logic true .opAnd left' right',
                    by simp [cleanQueryNode, hl, hr, hlp, hrp], ⟨hln, hrn⟩, ?_⟩
                  simp [conjuncts, hlnil, hrnil]
              | false =>
                  refine ⟨right', by simp [cleanQueryNode, hl, hr, hlp, hrp], hrn, ?_⟩
                  simp [hlnil]
          | false =>
              cases r with
              | true =>
                  refine ⟨left', by simp [cleanQueryNode, hl, hr, hlp, hrp], hln, ?_⟩
                  simp [hrnil]
              | false =>
                  exact ⟨.logic false .opAnd left' right',
                    by simp [cleanQueryNode, hl, hr, hlp, hrp], ⟨hln, hrn⟩, rfl⟩

/-! ## The split of the conjuncts -/

theorem forall_mem_eraseP {α : Type} {q : α → Bool} {a : α} {R : α → Prop} :
    ∀ {as : List α}, as.find? q = some a →
      ((∀ b ∈ as, R b) ↔ R a ∧ ∀ b ∈ as.eraseP q, R b)
  | [], h => by cases h
  | b :: as, h => by
      cases hb : q b with
      | true =>
          obtain rfl : b = a := by simpa [hb] using h
          simp [hb]
      | false =>
          have ih := forall_mem_eraseP (R := R) (show as.find? q = some a by simpa [hb] using h)
          simp only [List.eraseP_cons, hb, List.forall_mem_cons, ih]
          simp [and_left_comm]

/-- All predicates but the last are no ranges. -/
def RangeLast : List SIPredicate → Prop
  | [] => True
  | p :: ps => (ps = [] ∨ p.t.isRange = false) ∧ RangeLast ps

/-- The predicates are on the columns from `col` on. -/
def OnColumns : Nat → List SIPredicate → Prop
  | _, [] => True
  | col, p :: ps => p.propId = col ∧ OnColumns (col + 1) ps

/-- What is scanned and what is left say together what the conjuncts say. -/
theorem splitScan_spec :
    ∀ (props col : Nat) (as : List SIQueryNode),
      RangeLast (splitScan props col as).1 ∧ OnColumns col (splitScan props col as).1 ∧
        (splitScan props col as).1.length ≤ props ∧
        (∀ P, (∀ a ∈ as, TreeHolds P a) ↔
          (∀ p ∈ (splitScan props col as).1, P p) ∧
            ∀ a ∈ (splitScan props col as).2, TreeHolds P a) ∧
        ∀ P, (∀ a ∈ as, Leaves P a) →
          (∀ p ∈ (splitScan props col as).1, P p) ∧
            ∀ a ∈ (splitScan props col as).2, Leaves P a
  | 0, col, as => by simp [splitScan, RangeLast, OnColumns]
  | props + 1, col, as => by
      cases hfind : as.find? (isPredOn col) with
      | none => simp [splitScan, hfind, RangeLast, OnColumns]
      | some a =>
          obtain ⟨p, rfl, hcol⟩ := pred_of_isPredOn (List.find?_some hfind)
          have hholds : ∀ P, (∀ a ∈ as, TreeHolds P a) ↔
              P p ∧ ∀ a ∈ as.eraseP (isPredOn col), TreeHolds P a := by
            intro P
            rw [forall_mem_eraseP hfind]
            simp [TreeHolds]
          have hleaves : ∀ P, (∀ a ∈ as, Leaves P a) →
              P p ∧ ∀ a ∈ as.eraseP (isPredOn col), Leaves P a := by
            intro P
            rw [forall_mem_eraseP hfind]
            exact id
          -- A range is the last key that is taken; after a point the next column is tried.
          cases hrange : p.t.isRange with
          | true =>
              simp only [splitScan, hfind, hrange, if_true]
              refine ⟨⟨Or.inl rfl, trivial⟩, ⟨hcol, trivial⟩, by simp, ?_, ?_⟩
              · intro P
                simpa using hholds P
              · intro P h
                simpa using hleaves P h
          | false =>
              obtain ⟨hlast, hcols, hlen, hiff, hrest⟩ :=
                splitScan_spec props (col + 1) (as.eraseP (isPredOn col))
              simp only [splitScan, hfind, hrange, Bool.false_eq_true, if_false]
              refine ⟨⟨Or.inr hrange, hlast⟩, ⟨hcol, hcols⟩, by simpa using hlen, ?_, ?_⟩
              · intro P
                rw [hholds P, hiff P, List.forall_mem_cons, and_assoc]
              · intro P h
                obtain ⟨hp, herase⟩ := hleaves P h
                obtain ⟨hps, hleft⟩ := hrest P herase
                exact ⟨List.forall_mem_cons.2 ⟨hp, hps⟩, hleft⟩

/-! ## Ranges -/

def SIPlanRangeKey.interval (rk : SIPlanRangeKey) : LexInterval Place :=
  rangeInterval rk.min rk.max rk.minExclusive rk.maxExclusive

def SIPlanRange.interval (r : SIPlanRange) : LexInterval (List Place) where
  lo := places r.min
  hi := places r.max
  loOpen := r.minExclusive
  hiOpen := r.maxExclusive

/-- A scan range spans the intervals of its range keys. -/
theorem interval_siPlanRangeOf (stack : List SIPlanRangeKey) :
    (siPlanRangeOf stack).interval = LexInterval.span (stack.map SIPlanRangeKey.interval) := by
  have hlast : ∀ (g : LexInterval Place → Bool) (g' : SIPlanRangeKey → Bool),
      (∀ rk, g rk.interval = g' rk) →
        ((stack.map SIPlanRangeKey.interval).getLast?.map g).getD false =
          (stack.getLast?.map g').getD false := by
    intro g g' hg
    rw [List.getLast?_map, Option.map_map]
    congr 2
    funext rk
    exact hg rk
  simp only [SIPlanRange.interval, siPlanRangeOf, LexInterval.span, places, List.map_map]
  rw [hlast LexInterval.loOpen SIPlanRangeKey.minExclusive (fun _ => rfl),
    hlast LexInterval.hiOpen SIPlanRangeKey.maxExclusive (fun _ => rfl)]
  rfl

/-- A scan range for every choice of one range key for each column. -/
theorem buildKey_eq (keys : List (List SIPlanRangeKey)) :
    ∀ stack : List SIPlanRangeKey,
      buildKey keys stack = (choices keys).map fun ks => siPlanRangeOf (stack ++ ks) := by
  induction keys with
  | nil =>
      intro stack
      simp [buildKey, choices]
  | cons ka keys ih =>
      intro stack
      simp [buildKey, choices, ih, List.map_flatMap, Function.comp_def]

theorem mem_buildKey {keys : List (List SIPlanRangeKey)} {r : SIPlanRange} :
    r ∈ buildKey keys [] ↔ ∃ ks, List.Forall₂ (· ∈ ·) ks keys ∧ r = siPlanRangeOf ks := by
  simp only [buildKey_eq, List.nil_append, List.mem_map, mem_choices, eq_comm]

/-- A predicate holds where one of its range keys does. -/
theorem holdsAt_iff_rangesOf {t : SIType} {p : SIPredicate} (hne : p.t.isNotEquals = false)
    (hfits : p.t.Fits t) {x : Place} :
    HoldsAt x p.t ↔ ∃ rk ∈ rangesOf p, rk.interval.Holds x := by
  have hpoint : ∀ w, (equalTo w).interval.Holds x ↔ x = w.place := fun w => LexInterval.holds_point
  cases hp : p.t with
  | eq w => simp [HoldsAt, rangesOf, predicateToRanges, hp, hpoint]
  | ne w => simp [hp, SIPredicateType.isNotEquals] at hne
  | rng min max minExclusive maxExclusive =>
      simp [HoldsAt, rangesOf, predicateToRanges, hp, SIPlanRangeKey.interval]
  | inList ws => simp [HoldsAt, rangesOf, predicateToRanges, hp, hpoint]
  | isNull w =>
      rw [hp] at hfits
      obtain rfl : w = .null := hfits
      simp [HoldsAt, rangesOf, predicateToRanges, hp, hpoint]

/-- All range keys but the last are single values. -/
def PointKeys : List SIPlanRangeKey → Prop
  | [] => True
  | rk :: rks => (rks = [] ∨ ∃ w, rk = equalTo w) ∧ PointKeys rks

/-- The range keys of predicates of which only the last is a range. -/
theorem pointKeys_choice {ps : List SIPredicate} {ks : List SIPlanRangeKey} (hps : RangeLast ps)
    (hks : List.Forall₂ (· ∈ ·) ks (ps.map rangesOf)) : PointKeys ks := by
  induction ps generalizing ks with
  | nil =>
      cases hks
      trivial
  | cons p ps ih =>
      obtain _ | ⟨hk, hks⟩ := hks
      refine ⟨?_, ih hps.2 hks⟩
      rcases hps.1 with rfl | hrange
      · left
        cases hks
        rfl
      · right
        cases hp : p.t with
        | rng min max minExclusive maxExclusive => simp [hp, SIPredicateType.isRange] at hrange
        | eq w => exact ⟨w, by simpa [rangesOf, predicateToRanges, hp] using hk⟩
        | isNull w => exact ⟨w, by simpa [rangesOf, predicateToRanges, hp] using hk⟩
        | ne w => simp [rangesOf, predicateToRanges, hp] at hk
        | inList ws =>
            obtain ⟨w, _, rfl⟩ : ∃ w ∈ ws, equalTo w = _ := by
              simpa [rangesOf, predicateToRanges, hp] using hk
            exact ⟨w, rfl⟩

/-- The intervals of a choice of range keys are points, up to the last one. -/
theorem pointsFirst_of_pointKeys {ks : List SIPlanRangeKey} (h : PointKeys ks) :
    LexInterval.PointsFirst (ks.map SIPlanRangeKey.interval) := by
  induction ks with
  | nil => trivial
  | cons rk ks ih =>
      refine ⟨?_, ih h.2⟩
      rcases h.1 with rfl | ⟨w, rfl⟩
      · exact Or.inl rfl
      · exact Or.inr ⟨w.place, rfl⟩

/-- One predicate after the other, on columns from `col` on. -/
theorem forall₂_onColumns (Q : Place → SIPredicateType → Prop) (xs : List Place) :
    ∀ {ps : List SIPredicate} {col : Nat}, OnColumns col ps → col + ps.length ≤ xs.length →
      (List.Forall₂ (fun p x => Q x p.t) ps ((xs.drop col).take ps.length) ↔
        ∀ p ∈ ps, AtPlace Q xs p)
  | [], col, _, _ => by simp
  | p :: ps, col, hcols, hlen => by
      obtain ⟨hcol, hcols⟩ := hcols
      have hlen' : col + (ps.length + 1) ≤ xs.length := hlen
      have hlt : col < xs.length := by omega
      have ih := forall₂_onColumns Q xs hcols (by omega)
      have hnat : p.propId.toNat = col := by omega
      rw [List.drop_eq_getElem_cons hlt, List.length_cons, List.take_succ_cons, List.forall₂_cons,
        ih, List.forall_mem_cons]
      simp [AtPlace, hnat, hlt]

theorem forall₂_congr_left {α β : Type} {R S : α → β → Prop} :
    ∀ {as : List α} {bs : List β}, (∀ a ∈ as, ∀ b, R a b ↔ S a b) →
      (List.Forall₂ R as bs ↔ List.Forall₂ S as bs)
  | [], bs, _ => by simp
  | a :: as, [], _ => by simp
  | a :: as, b :: bs, h => by
      rw [List.forall₂_cons, List.forall₂_cons, h a (by simp) b,
        forall₂_congr_left fun a ha => h a (List.mem_cons_of_mem _ ha)]

section Ranges

variable {types : List SIType} {ps : List SIPredicate} {xs : List Place}

/-- The scan range of a choice holds a tuple when each range key holds the place of its column. -/
theorem interval_choice_holds (hlast : RangeLast ps) (hlen : ps.length ≤ xs.length)
    {ks : List SIPlanRangeKey} (hks : List.Forall₂ (· ∈ ·) ks (ps.map rangesOf)) :
    (siPlanRangeOf ks).interval.Holds (xs.take (siPlanRangeOf ks).min.length) ↔
      List.Forall₂ (fun rk x => rk.interval.Holds x) ks (xs.take ps.length) := by
  have hkslen : ks.length = ps.length := by simpa using hks.length_eq
  have hspan := LexInterval.span_holds_iff _ xs (pointsFirst_of_pointKeys (pointKeys_choice hlast hks))
    (by simpa [hkslen] using hlen)
  rw [interval_siPlanRangeOf]
  simpa [siPlanRangeOf, hkslen, List.forall₂_map_left_iff] using hspan

/-- Predicates that are met have range keys that hold the places of their columns. -/
theorem forall₂_rangesOf (hcols : OnColumns 0 ps) (hok : ∀ p ∈ ps, PredOk types p)
    (hne : ∀ p ∈ ps, p.t.isNotEquals = false) (hlen : ps.length ≤ xs.length) :
    List.Forall₂ (fun rks x => ∃ rk ∈ rks, (SIPlanRangeKey.interval rk).Holds x)
        (ps.map rangesOf) (xs.take ps.length) ↔
      ∀ p ∈ ps, AtPlace HoldsAt xs p := by
  have hpreds : List.Forall₂ (fun p x => ∃ rk ∈ rangesOf p, rk.interval.Holds x) ps
      (xs.take ps.length) ↔
      List.Forall₂ (fun (p : SIPredicate) x => HoldsAt x p.t) ps (xs.take ps.length) := by
    refine forall₂_congr_left fun p hp x => ?_
    obtain ⟨_, _, _, hfits⟩ := hok p hp
    exact (holdsAt_iff_rangesOf (hne p hp) hfits).symm
  rw [List.forall₂_map_left_iff, hpreds]
  simpa using forall₂_onColumns HoldsAt xs hcols (by simpa using hlen)

/-- A tuple is in one of the scan ranges when it meets the predicates that are scanned. -/
theorem inRanges_iff (hlast : RangeLast ps) (hcols : OnColumns 0 ps)
    (hok : ∀ p ∈ ps, PredOk types p) (hne : ∀ p ∈ ps, p.t.isNotEquals = false)
    (hlen : ps.length ≤ xs.length) :
    (∃ r ∈ buildKey (ps.map rangesOf) [], r.interval.Holds (xs.take r.min.length)) ↔
      ∀ p ∈ ps, AtPlace HoldsAt xs p := by
  have hchoice : (∃ r ∈ buildKey (ps.map rangesOf) [], r.interval.Holds (xs.take r.min.length)) ↔
      ∃ ks ∈ choices (ps.map rangesOf),
        List.Forall₂ (fun rk x => (SIPlanRangeKey.interval rk).Holds x) ks (xs.take ps.length) := by
    constructor
    · rintro ⟨r, hr, hholds⟩
      obtain ⟨ks, hks, rfl⟩ := mem_buildKey.1 hr
      exact ⟨ks, mem_choices.2 hks, (interval_choice_holds hlast hlen hks).1 hholds⟩
    · rintro ⟨ks, hks, hholds⟩
      have hks := mem_choices.1 hks
      exact ⟨_, mem_buildKey.2 ⟨ks, hks, rfl⟩, (interval_choice_holds hlast hlen hks).2 hholds⟩
  rw [hchoice, exists_fitting_choice, forall₂_rangesOf hcols hok hne hlen]

/-- The predicate lists a value at the place `x` at most once. -/
def ListedOnceAt (x : Place) : SIPredicateType → Prop
  | .inList ws => AtMostOne (fun w => x = w.place) ws
  | _ => True

theorem atMostOne_rangesOf {p : SIPredicate} {x : Place} :
    AtMostOne (fun rk => (SIPlanRangeKey.interval rk).Holds x) (rangesOf p) ↔
      ListedOnceAt x p.t := by
  cases hp : p.t with
  | eq w => simp [rangesOf, predicateToRanges, hp, AtMostOne.singleton, ListedOnceAt]
  | ne w => simp [rangesOf, predicateToRanges, hp, AtMostOne, ListedOnceAt]
  | rng min max minExclusive maxExclusive =>
      simp [rangesOf, predicateToRanges, hp, AtMostOne.singleton, ListedOnceAt]
  | isNull w => simp [rangesOf, predicateToRanges, hp, AtMostOne.singleton, ListedOnceAt]
  | inList ws =>
      have hpoint : ∀ w, (equalTo w).interval.Holds x ↔ x = w.place :=
        fun w => LexInterval.holds_point
      simp [rangesOf, predicateToRanges, hp, atMostOne_map, ListedOnceAt, hpoint]

/-- A tuple that meets the scanned predicates is in one scan range only, exactly when no list has
the place of its column twice. -/
theorem atMostOne_inRanges (hlast : RangeLast ps) (hcols : OnColumns 0 ps)
    (hok : ∀ p ∈ ps, PredOk types p) (hne : ∀ p ∈ ps, p.t.isNotEquals = false)
    (hlen : ps.length ≤ xs.length) (hmeets : ∀ p ∈ ps, AtPlace HoldsAt xs p) :
    AtMostOne (fun r : SIPlanRange => r.interval.Holds (xs.take r.min.length))
        (buildKey (ps.map rangesOf) []) ↔
      ∀ p ∈ ps, AtPlace ListedOnceAt xs p := by
  have hfit := (forall₂_rangesOf hcols hok hne hlen).2 hmeets
  have honce : List.Forall₂ (fun rks x => AtMostOne (fun rk => (SIPlanRangeKey.interval rk).Holds x) rks)
      (ps.map rangesOf) (xs.take ps.length) ↔
      List.Forall₂ (fun (p : SIPredicate) x => ListedOnceAt x p.t) ps (xs.take ps.length) := by
    rw [List.forall₂_map_left_iff]
    exact forall₂_congr_left fun p _ x => atMostOne_rangesOf
  have hcolumns := forall₂_onColumns ListedOnceAt xs hcols (by simpa using hlen)
  rw [buildKey_eq, atMostOne_map]
  calc AtMostOne (fun ks => (siPlanRangeOf ([] ++ ks)).interval.Holds
          (xs.take (siPlanRangeOf ([] ++ ks)).min.length)) (choices (ps.map rangesOf))
      ↔ AtMostOne (fun ks => List.Forall₂ (fun rk x => (SIPlanRangeKey.interval rk).Holds x) ks
          (xs.take ps.length)) (choices (ps.map rangesOf)) :=
        atMostOne_congr fun ks hks => interval_choice_holds hlast hlen (mem_choices.1 hks)
    _ ↔ List.Forall₂ (fun (p : SIPredicate) x => ListedOnceAt x p.t) ps (xs.take ps.length) :=
        (atMostOne_choices hfit).trans honce
    _ ↔ ∀ p ∈ ps, AtPlace ListedOnceAt xs p := by simpa using hcolumns

end Ranges

/-! ## Plans -/

/-- A tree that can be planned: well typed, without `!=`, and not planned before. -/
structure Plannable (types : List SIType) (n : SIQueryNode) : Prop where
  typed : QueryOk types n
  noNotEquals : Leaves (fun p => p.t.isNotEquals = false) n
  unmarked : Unmarked n

/-- The predicates of a tree that are scanned. -/
def scanned (props : Nat) (n : SIQueryNode) : List SIPredicate :=
  (splitScan props 0 (conjuncts n)).1

theorem length_scanned_le (props : Nat) (n : SIQueryNode) : (scanned props n).length ≤ props :=
  (splitScan_spec props 0 (conjuncts n)).2.2.1

/-- The conjuncts of a tree that are left for the filter. -/
def filtered (props : Nat) (n : SIQueryNode) : List SIQueryNode :=
  (splitScan props 0 (conjuncts n)).2

/-- The ranges of a plan for the tree `n` are those of the scanned predicates, and the conjuncts of
its filter are the ones that are left. -/
structure PlanFor (P : SIPredicate → Prop) (props : Nat) (n : SIQueryNode) (plan : SIQueryPlan) :
    Prop where
  ranges : plan.ranges = buildKey ((scanned props n).map rangesOf) []
  leaves : ∀ t ∈ plan.filterTree, Leaves P t
  filter : (plan.filterTree.map conjuncts).getD [] = filtered props n

/-- What a plan for the tree `n` is. -/
structure PlanOf (types : List SIType) (n : SIQueryNode) (plan : SIQueryPlan) : Prop where
  ranges : ∀ xs : List Place, xs.length = types.length →
    ((∃ r ∈ plan.ranges, r.interval.Holds (xs.take r.min.length)) ↔
      ∀ p ∈ scanned types.length n, AtPlace HoldsAt xs p)
  bounds : ∀ r ∈ plan.ranges, BoundsOk types r.min ∧ BoundsOk types r.max ∧
    r.min.length = r.max.length
  filterOk : ∀ t ∈ plan.filterTree, QueryOk types t
  filter : ∀ P, (∀ t ∈ plan.filterTree, TreeHolds P t) ↔
    ∀ a ∈ filtered types.length n, TreeHolds P a

theorem boundOk_rangesOf {t : SIType} {p : SIPredicate} (hfits : p.t.Fits t)
    {rk : SIPlanRangeKey} (h : rk ∈ rangesOf p) : BoundOk t rk.min ∧ BoundOk t rk.max := by
  have hpoint : ∀ w, BoundOk t w → rk = equalTo w → BoundOk t rk.min ∧ BoundOk t rk.max := by
    rintro w hw rfl
    exact ⟨hw, hw⟩
  cases hp : p.t with
  | eq w =>
      rw [hp] at hfits
      exact hpoint w hfits (by simpa [rangesOf, predicateToRanges, hp] using h)
  | ne w => simp [rangesOf, predicateToRanges, hp] at h
  | rng min max minExclusive maxExclusive =>
      rw [hp] at hfits
      simp only [rangesOf, predicateToRanges, hp, Option.getD_some, List.mem_singleton] at h
      subst h
      exact hfits
  | inList ws =>
      rw [hp] at hfits
      simp only [rangesOf, predicateToRanges, hp, Option.getD_some, List.mem_map] at h
      obtain ⟨w, hw, rfl⟩ := h
      exact ⟨hfits w hw, hfits w hw⟩
  | isNull w =>
      rw [hp] at hfits
      obtain rfl : w = .null := hfits
      exact hpoint .null (Or.inl (Or.inl rfl)) (by simpa [rangesOf, predicateToRanges, hp] using h)

/-- The ends of a scan range fit the first columns. -/
theorem boundsOk_choice {types : List SIType} {ps : List SIPredicate} :
    ∀ {col : Nat} {ks : List SIPlanRangeKey}, OnColumns col ps → (∀ p ∈ ps, PredOk types p) →
      List.Forall₂ (· ∈ ·) ks (ps.map rangesOf) →
        BoundsOk (types.drop col) (ks.map SIPlanRangeKey.min) ∧
          BoundsOk (types.drop col) (ks.map SIPlanRangeKey.max) := by
  induction ps with
  | nil =>
      intro col ks _ _ hks
      cases hks
      constructor <;> simp [BoundsOk]
  | cons p ps ih =>
      intro col ks hcols hok hks
      obtain _ | ⟨hk, hks⟩ := hks
      obtain ⟨_, t, ht, hfits⟩ := hok p (by simp)
      have hnat : p.propId.toNat = col := by
        have := hcols.1
        omega
      rw [hnat] at ht
      obtain ⟨hlt, rfl⟩ := List.getElem?_eq_some_iff.1 ht
      obtain ⟨hmin, hmax⟩ := ih hcols.2 (fun p hp => hok p (List.mem_cons_of_mem _ hp)) hks
      obtain ⟨hkmin, hkmax⟩ := boundOk_rangesOf hfits hk
      rw [List.drop_eq_getElem_cons hlt]
      exact ⟨⟨hkmin, hmin⟩, hkmax, hmax⟩

/-- `SI_BuildQueryPlan`, whatever the predicates are: a plan if something is scanned. -/
theorem siBuildQueryPlan_run {P : SIPredicate → Prop} {q : SIQuery} {spec : SISpec}
    (hn : Leaves P q.root) (hne : Leaves (fun p => p.t.isNotEquals = false) q.root)
    (hu : Unmarked q.root) {r : SIQueryNode × List (List SIPlanRangeKey)}
    (hscan : scanKeys q.numPredicates spec.numProps q.root [] = .ok r) :
    ∃ q' plan, siBuildQueryPlan q spec = .ok (q', plan) ∧
      (plan = none ↔ scanned spec.types.length q.root = []) ∧
      ∀ pl ∈ plan, PlanFor P spec.types.length q.root pl := by
  have hprops : spec.numProps = spec.types.length := by simp [SISpec.numProps, SISpec.types]
  obtain ⟨n, keys⟩ := r
  obtain ⟨hkeys, hconj⟩ := scanKeys_spec hne (hprops ▸ hscan)
  obtain ⟨hn', hmarked⟩ := scanKeys_marked hn hu.markedInAnd hscan
  obtain rfl : keys = (scanned spec.types.length q.root).map rangesOf := by
    simpa [scanned] using hkeys
  have hfiltered : conjuncts n = filtered spec.types.length q.root := hconj
  obtain ⟨passthru, hpass, hnil⟩ := isPassthru_spec hn'
  obtain ⟨n', hclean, hleaves, hclean'⟩ := cleanQueryNode_spec hn' hmarked
  by_cases hempty : scanned spec.types.length q.root = []
  · exact ⟨{ q with root := n }, none, by simp [siBuildQueryPlan, hscan, hempty], by simp [hempty],
      by simp⟩
  · obtain ⟨ranges, hranges⟩ : ∃ ranges,
        ranges = buildKey ((scanned spec.types.length q.root).map rangesOf) [] := ⟨_, rfl⟩
    cases passthru with
    | true =>
        refine ⟨{ q with root := n }, some { ranges := ranges, filterTree := none },
          by simp [siBuildQueryPlan, hscan, hempty, hpass, hranges], by simp [hempty], ?_⟩
        rintro pl ⟨⟩
        exact ⟨hranges, by simp, by simp [← hfiltered, hnil]⟩
    | false =>
        refine ⟨{ q with root := n' }, some { ranges := ranges, filterTree := some n' },
          by simp [siBuildQueryPlan, hscan, hempty, hpass, hclean, hranges], by simp [hempty], ?_⟩
        rintro pl ⟨⟩
        exact ⟨hranges, by simpa using hleaves, by simp [hclean', hfiltered]⟩

theorem siBuildQueryPlan_for {P : SIPredicate → Prop} {q q' : SIQuery} {spec : SISpec}
    {plan : SIQueryPlan} (hn : Leaves P q.root)
    (hne : Leaves (fun p => p.t.isNotEquals = false) q.root) (hu : Unmarked q.root)
    (h : siBuildQueryPlan q spec = .ok (q', some plan)) :
    PlanFor P spec.types.length q.root plan := by
  obtain ⟨r, hscan, _⟩ := bind_eq_ok.1 h
  obtain ⟨_, plan', hrun, _, hfor⟩ := siBuildQueryPlan_run hn hne hu hscan
  obtain ⟨_, rfl⟩ := Prod.mk.inj (Except.ok.inj (h.symm.trans hrun))
  exact hfor plan rfl

/-- `SI_BuildQueryPlan`: the scan ranges hold the tuples that meet the scanned predicates, and the
filter says what the other conjuncts say. -/
theorem siBuildQueryPlan_spec {q q' : SIQuery} {spec : SISpec} {plan : SIQueryPlan}
    (hq : Plannable spec.types q.root) (h : siBuildQueryPlan q spec = .ok (q', some plan)) :
    PlanOf spec.types q.root plan := by
  obtain ⟨hlast, hcols, hlen, _, hleaves⟩ :=
    splitScan_spec spec.types.length 0 (conjuncts q.root)
  have hok := (hleaves _ (leaves_conjuncts hq.typed)).1
  have hne := (hleaves _ (leaves_conjuncts hq.noNotEquals)).1
  have hfor := siBuildQueryPlan_for hq.typed hq.noNotEquals hq.unmarked h
  refine ⟨?_, ?_, hfor.leaves, ?_⟩
  · intro xs hxs
    rw [hfor.ranges]
    exact inRanges_iff hlast hcols hok hne (by rwa [hxs])
  · intro r hr
    rw [hfor.ranges] at hr
    obtain ⟨ks, hks, rfl⟩ := mem_buildKey.1 hr
    have hbounds := boundsOk_choice hcols hok hks
    exact ⟨hbounds.1, hbounds.2, by simp [siPlanRangeOf]⟩
  · intro P
    rw [← hfor.filter]
    cases plan.filterTree with
    | none => simp
    | some t =>
        simp only [Option.mem_some_iff, forall_eq', Option.map_some, Option.getD_some,
          treeHolds_iff_conjuncts (n := t)]

end Secondary
