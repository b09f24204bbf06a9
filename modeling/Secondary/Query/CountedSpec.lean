import Secondary.Query.Counted
import Secondary.Query.ParseSpec

/-!
# Query.CountedSpec — translating, planning and freeing count exactly

Each function of the life of a query gets what its callers hold and leaves what it returns: for any
tree and whatever else is held meanwhile, every step counts exactly, no counter is used behind its
last reference, and forgetting the counters gives what the function returns without them.
-/

namespace Secondary

open Lib Lib.Counting

/-! ## Values -/

section Values

variable {reads : List Cell}

theorem siStringValC_spec (s : List UInt8) :
    Spec reads [] (siStringValC s) (Holds (fun v => v.erase = .string s) RcValue.cells) :=
  Spec.newRef.bind_holds fun _ _ => .pure_holds rfl (.refl _)

theorem siValueCopy_spec {v : RcValue} (h : ∀ c ∈ v.cells, c ∈ reads) :
    Spec reads [] (siValueCopy v) (Holds (fun w => w = v) RcValue.cells) := by
  cases v with
  | string s rc =>
      exact (Spec.incRef (h rc (List.mem_singleton_self rc))).bind_holds fun _ _ =>
        .pure_holds rfl (.refl _)
  | other v hv => exact .pure_holds rfl (.refl _)

theorem siValueFree_spec (v : RcValue) : Spec reads v.cells (siValueFree v) GivenUp := by
  cases v with
  | string s rc => exact .decRef
  | other v hv => exact .pure_holds trivial (.refl _)

theorem siValueVectorFree_spec (vals : List RcValue) :
    Spec reads (vals.flatMap RcValue.cells) (siValueVectorFree vals) GivenUp :=
  .freeEach fun v _ => siValueFree_spec v

end Values

/-! ## Freeing the parse tree -/

theorem RcPredicateNode.val_ok {n : RcPredicateNode} {v : SIValue} (h : n.erase.val = .ok v) :
    ∃ w, n.operand = .val w ∧ n.val = .ok w ∧ w.erase = v := by
  obtain ⟨prop, op, operand⟩ := n
  cases operand with
  | val w => exact ⟨w, rfl, rfl, Except.ok.inj h⟩
  | lst vals => cases h

theorem RcPredicateNode.lst_ok {n : RcPredicateNode} {vs : List SIValue}
    (h : n.erase.lst = .ok vs) :
    ∃ ws, n.operand = .lst ws ∧ n.lst = .ok ws ∧ ws.map RcValue.erase = vs := by
  obtain ⟨prop, op, operand⟩ := n
  cases operand with
  | val w => cases h
  | lst ws => exact ⟨ws, rfl, rfl, Except.ok.inj h⟩

/-- A predicate node that the parser makes has a list exactly for `IN`. -/
theorem PredicateNode.Built.operand {n : PredicateNode} (h : n.Built) :
    if n.op = .IN then ∃ vs, n.lst = .ok vs else ∃ v, n.val = .ok v := by
  cases h with
  | comparison hop hrank =>
      rw [if_neg]
      · exact ⟨_, rfl⟩
      · rintro rfl
        simp [comparisonOps] at hop
  | like => exact ⟨_, rfl⟩
  | isNull => exact ⟨_, rfl⟩
  | inList hrank => exact ⟨_, rfl⟩

theorem parseNodeFree_spec {reads : List Cell} {n : RcParseNode} (h : n.erase.Built) :
    Spec reads n.cells (parseNodeFree n) GivenUp := by
  induction n with
  | pred pn =>
      have hoperand := h.1.operand
      change if pn.op = .IN then _ else _ at hoperand
      rw [parseNodeFree]
      by_cases hin : pn.op = .IN
      · rw [if_pos hin] at hoperand ⊢
        obtain ⟨vs, hvs⟩ := hoperand
        obtain ⟨ws, hws, hlst, _⟩ := RcPredicateNode.lst_ok hvs
        rw [RcParseNode.cells, hws]
        exact .bind_ofExcept hlst (siValueVectorFree_spec ws)
      · rw [if_neg hin] at hoperand ⊢
        obtain ⟨v, hv⟩ := hoperand
        obtain ⟨w, hw, hval, _⟩ := RcPredicateNode.val_ok hv
        rw [RcParseNode.cells, hw]
        exact .bind_ofExcept hval (siValueFree_spec w)
  | cond left op right ihl ihr =>
      exact Spec.bind_holding (ihl h.2.1) (.refl _) (fun c hc => Or.inr hc) fun _ _ => ihr h.2.2

/-! ## Freeing the query tree -/

theorem freePredicate_spec {reads : List Cell} (p : RcPredicateType) :
    Spec reads p.cells (freePredicate p) GivenUp := by
  cases p with
  | eq v => exact siValueFree_spec v
  | ne v => exact siValueFree_spec v
  | rng min max minExclusive maxExclusive =>
      exact Spec.bind_holding (siValueFree_spec min) (.refl _) (fun c hc => Or.inr hc)
        fun _ _ => siValueFree_spec max
  | inList vals => exact siValueVectorFree_spec vals
  | isNull => exact .pure_holds trivial (.refl _)

theorem siQueryNodeFree_spec {reads : List Cell} (n : RcQueryNode) :
    Spec reads n.cells (siQueryNodeFree n) GivenUp := by
  induction n with
  | null => exact .pure_holds trivial (.refl _)
  | pred passthru p => exact freePredicate_spec p.t
  | logic passthru op left right ihl ihr =>
      exact Spec.bind_holding ihl (.refl _) (fun c hc => Or.inr hc) fun _ _ => ihr

/-! ## Translating -/

section Translate

variable {reads : List Cell}

theorem siPredEqualsRc_spec (propId : Int) {v : RcValue} (h : ∀ c ∈ v.cells, c ∈ reads) :
    Spec reads [] (siPredEqualsRc propId v)
      (Holds (fun n => n.erase = siPredEquals propId v.erase) RcQueryNode.cells) := by
  refine (siValueCopy_spec h).bind_holds ?_
  rintro _ rfl
  exact .pure_holds rfl (.refl _)

theorem siPredBetweenRc_spec (propId : Int) {min max : RcValue} (minExclusive maxExclusive : Bool)
    (hmin : ∀ c ∈ min.cells, c ∈ reads) (hmax : ∀ c ∈ max.cells, c ∈ reads) :
    Spec reads [] (siPredBetweenRc propId min max minExclusive maxExclusive)
      (Holds (fun n => n.erase =
        siPredBetween propId min.erase max.erase minExclusive maxExclusive) RcQueryNode.cells) := by
  refine (siValueCopy_spec hmin).bind_holds ?_
  rintro _ rfl
  refine Spec.bind_holding (siValueCopy_spec hmax) (.refl _) (fun c hc => Or.inr hc) ?_
  rintro _ rfl
  exact .pure_holds rfl List.perm_append_comm

theorem siPredInRc_spec (propId : Int) {vals : List RcValue}
    (h : ∀ v ∈ vals, ∀ c ∈ v.cells, c ∈ reads) :
    Spec reads [] (siPredInRc propId vals)
      (Holds (fun n => n.erase = siPredIn propId (vals.map RcValue.erase)) RcQueryNode.cells) := by
  have hcopies : Spec reads [] (gather RcValue.cells
      (fun v => do
        let v ← siValueCopy v
        pure [v]) vals)
      (Holds (fun vec => vec.map RcValue.erase = vals.flatMap fun v => [v.erase])
        (List.flatMap RcValue.cells)) := by
    refine .gather fun v hv => (siValueCopy_spec (h v hv)).bind_holds ?_
    rintro _ rfl
    exact .pure_holds rfl (by simp)
  refine hcopies.bind_holds fun vec hvec => .pure_holds ?_ (.refl _)
  have hmap : vec.map RcValue.erase = vals.map RcValue.erase := by
    rw [hvec, List.map_eq_flatMap]
  simp only [RcQueryNode.erase, RcPredicate.erase, RcPredicateType.erase, hmap, siPredIn]

/-- Both bounds of a prefix have the counter of the pattern. -/
theorem likeQueryNodeRc_spec {v : RcValue} {t : SIQueryNode} (h : likeQueryNode v.erase = .ok t)
    (hreads : ∀ c ∈ v.cells, c ∈ reads) :
    Spec reads [] (likeQueryNodeRc v) (Holds (fun n => n.erase = t) RcQueryNode.cells) := by
  cases v with
  | string str rc =>
      change (if str.getLast? = some 37 then _ else _) = _ at h
      rw [likeQueryNodeRc]
      by_cases hpercent : str.getLast? = some 37
      · rw [if_pos hpercent] at h ⊢
        obtain rfl := Except.ok.inj h
        exact siPredBetweenRc_spec 0 false false hreads hreads
      · rw [if_neg hpercent] at h ⊢
        obtain rfl := Except.ok.inj h
        exact siPredEqualsRc_spec 0 hreads
  | other v hv =>
      obtain ⟨str, hstr, _⟩ := bind_eq_ok.1 h
      cases v <;> first | exact absurd rfl hv | cases hstr

theorem toQueryNodeRc_spec {n : RcPredicateNode} {t : SIQueryNode}
    (h : toQueryNode n.erase = .ok t) (hreads : ∀ c ∈ n.operand.cells, c ∈ reads) :
    Spec reads [] (toQueryNodeRc n) (Holds (fun r => r.erase = t) RcQueryNode.cells) := by
  obtain ⟨prop, op, operand⟩ := n
  have hvalue : ∀ {v : SIValue}, (RcPredicateNode.mk prop op operand).erase.val = .ok v →
      ∃ w, (RcPredicateNode.mk prop op operand).val = .ok w ∧ w.erase = v ∧
        ∀ c ∈ w.cells, c ∈ reads := by
    intro v hv
    obtain ⟨w, rfl, hval, herase⟩ := RcPredicateNode.val_ok hv
    exact ⟨w, hval, herase, hreads⟩
  have hinfinite : ∀ w : RcValue, w.cells = [] → ∀ c ∈ w.cells, c ∈ reads := by
    intro w hw c hc
    rw [hw] at hc
    cases hc
  cases op
  case EQ =>
      obtain ⟨v, hv, ht⟩ := bind_eq_ok.1 h
      obtain ⟨w, hval, rfl, hw⟩ := hvalue hv
      obtain rfl := Except.ok.inj ht
      exact Spec.bind_ofExcept hval (siPredEqualsRc_spec 0 hw)
  case GT | GE =>
      obtain ⟨v, hv, ht⟩ := bind_eq_ok.1 h
      obtain ⟨w, hval, rfl, hw⟩ := hvalue hv
      obtain rfl := Except.ok.inj ht
      exact Spec.bind_ofExcept hval (siPredBetweenRc_spec 0 _ _ hw (hinfinite _ rfl))
  case LT | LE =>
      obtain ⟨v, hv, ht⟩ := bind_eq_ok.1 h
      obtain ⟨w, hval, rfl, hw⟩ := hvalue hv
      obtain rfl := Except.ok.inj ht
      exact Spec.bind_ofExcept hval (siPredBetweenRc_spec 0 _ _ (hinfinite _ rfl) hw)
  case IN =>
      obtain ⟨vs, hvs, ht⟩ := bind_eq_ok.1 h
      obtain ⟨ws, rfl, hlst, rfl⟩ := RcPredicateNode.lst_ok hvs
      obtain rfl := Except.ok.inj ht
      exact Spec.bind_ofExcept hlst (siPredInRc_spec 0 fun v hv c hc =>
        hreads c (List.mem_flatMap.2 ⟨v, hv, hc⟩))
  case LIKE =>
      obtain ⟨v, hv, ht⟩ := bind_eq_ok.1 h
      obtain ⟨w, hval, rfl, hw⟩ := hvalue hv
      exact Spec.bind_ofExcept hval (likeQueryNodeRc_spec ht hw)
  case IS =>
      obtain ⟨v, hv, ht⟩ := bind_eq_ok.1 h
      obtain ⟨w, hval, rfl, hw⟩ := hvalue hv
      obtain rfl := Except.ok.inj ht
      refine Spec.bind_ofExcept hval ?_
      by_cases hnull : w.erase.isNull = true
      · rw [if_pos hnull, if_pos hnull]
        exact .pure_holds rfl (.refl _)
      · rw [if_neg hnull, if_neg hnull]
        exact .pure_holds rfl (.refl _)
  all_goals
    -- No other operator has a node.
    obtain rfl := Except.ok.inj h
    exact .pure_holds rfl (.refl _)

theorem RcQueryNode.setPropId_ok {ret : RcQueryNode} {id : Int} {t : SIQueryNode}
    (h : ret.erase.setPropId id = .ok t) :
    ∃ r, ret.setPropId id = .ok r ∧ r.erase = t ∧ r.cells = ret.cells := by
  cases ret with
  | null => cases h
  | pred passthru p => exact ⟨_, rfl, Except.ok.inj h, rfl⟩
  | logic passthru op left right => cases h

theorem traverseNodeRc_spec (spec : Option SISpec) {n : RcParseNode} {k k' : Nat}
    {t : SIQueryNode} (h : traverseNode spec n.erase k = .ok (t, k'))
    (hreads : ∀ c ∈ n.cells, c ∈ reads) :
    Spec reads [] (traverseNodeRc spec n k)
      (Holds (fun r => r.1.erase = t ∧ r.2 = k') fun r => r.1.cells) := by
  induction n generalizing k k' t with
  | pred pn =>
      obtain ⟨ret, hret, h⟩ := bind_eq_ok.1 h
      obtain ⟨ret', hset, h⟩ := bind_eq_ok.1 h
      obtain ⟨rfl, rfl⟩ := Prod.mk.inj (Except.ok.inj h)
      refine (toQueryNodeRc_spec hret hreads).bind_holds ?_
      rintro node rfl
      obtain ⟨node', hnode, herase, hcells⟩ := RcQueryNode.setPropId_ok hset
      refine .bind_ofExcept hnode (.pure_holds ⟨herase, rfl⟩ ?_)
      rw [hcells]
  | cond left op right ihl ihr =>
      obtain ⟨⟨tl, kl⟩, hl, h⟩ := bind_eq_ok.1 h
      obtain ⟨⟨tr, kr⟩, hr, h⟩ := bind_eq_ok.1 h
      obtain ⟨rfl, rfl⟩ := Prod.mk.inj (Except.ok.inj h)
      have hleft := ihl hl fun c hc => hreads c (List.mem_append_left _ hc)
      refine hleft.bind_holds ?_
      rintro ⟨l, _⟩ ⟨rfl, rfl⟩
      have hright := ihr hr fun c hc => hreads c (List.mem_append_right _ hc)
      refine Spec.bind_holding hright (.refl _) (fun c hc => Or.inr hc) ?_
      rintro ⟨r, _⟩ ⟨rfl, rfl⟩
      exact .pure_holds ⟨rfl, rfl⟩ List.perm_append_comm

/-- The parse tree is gone when it is translated. -/
theorem translateRc_spec {spec : Option SISpec} {root : RcParseNode} {t : SIQueryNode} {k : Nat}
    (hbuilt : root.erase.Built) (h : traverseNode spec root.erase 0 = .ok (t, k)) :
    Spec reads root.cells (translateRc spec root)
      (Holds (fun q => q.erase = { root := t, numPredicates := k }) fun q => q.root.cells) := by
  refine (Spec.useEach fun c hc => Or.inl hc).bind_holds fun _ _ => ?_
  refine Spec.bind_holding (traverseNodeRc_spec spec h fun c hc => hc) (.refl _)
    (fun c hc => Or.inl hc) ?_
  rintro ⟨node, k⟩ ⟨rfl, rfl⟩
  refine Spec.bind_holding (parseNodeFree_spec hbuilt) List.perm_append_comm
    (fun c hc => Or.inr hc) fun _ _ => ?_
  exact .pure_holds rfl (.refl _)

end Translate

/-! ## Planning -/

section Plan

/-- Every counter that the range keys lead to is among `cells`. -/
def KeysIn (cells : List Cell) (keys : List (List RcPlanRangeKey)) : Prop :=
  ∀ ks ∈ keys, ∀ k ∈ ks, ∀ c ∈ k.cells, c ∈ cells

theorem keysIn_nil {cells : List Cell} : KeysIn cells [] :=
  fun _ hks => by cases hks

/-- The range keys without their counters. -/
def eraseKeys (keys : List (List RcPlanRangeKey)) : List (List SIPlanRangeKey) :=
  keys.map (List.map RcPlanRangeKey.erase)

/-- Marking the predicate moves no value. -/
theorem getPredicateRc_spec (propId : Int) (n : RcQueryNode) :
    (getPredicateRc propId n).1.erase = (getPredicate propId n.erase).1 ∧
      (getPredicateRc propId n).2.map RcPredicate.erase = (getPredicate propId n.erase).2 ∧
      (getPredicateRc propId n).1.cells = n.cells ∧
      ∀ p, (getPredicateRc propId n).2 = some p → ∀ c ∈ p.t.cells, c ∈ n.cells := by
  induction n with
  | null => exact ⟨rfl, rfl, rfl, fun p hp => by cases hp⟩
  | pred passthru p =>
      have hrc : getPredicateRc propId (.pred passthru p) =
          if passthru = false ∧ p.propId = propId then (.pred true p, some p)
          else (.pred passthru p, none) := rfl
      have herase : getPredicate propId (RcQueryNode.pred passthru p).erase =
          if passthru = false ∧ p.propId = propId then (.pred true p.erase, some p.erase)
          else (.pred passthru p.erase, none) := rfl
      rw [hrc, herase]
      by_cases hp : passthru = false ∧ p.propId = propId
      · rw [if_pos hp, if_pos hp]
        refine ⟨rfl, rfl, rfl, fun p' hp' c hc => ?_⟩
        obtain rfl := Option.some.inj hp'
        exact hc
      · rw [if_neg hp, if_neg hp]
        exact ⟨rfl, rfl, rfl, fun p hp => by cases hp⟩
  | logic passthru op left right ihl ihr =>
      -- Only an AND node that is not marked is searched, its left side first.
      by_cases hand : passthru = false ∧ op = .opAnd
      · obtain ⟨hl₁, hl₂, hl₃, hl₄⟩ := ihl
        obtain ⟨hr₁, hr₂, hr₃, hr₄⟩ := ihr
        simp only [getPredicateRc, RcQueryNode.erase, getPredicate, if_pos hand]
        cases hl : (getPredicateRc propId left).2 with
        | some p =>
            have hsome : (getPredicate propId left.erase).2 = some p.erase := by
              rw [← hl₂, hl, Option.map_some]
            rw [hsome]
            refine ⟨by simp [RcQueryNode.erase, hl₁], rfl, by simp [RcQueryNode.cells, hl₃], ?_⟩
            intro p' hp' c hc
            obtain rfl := Option.some.inj hp'
            exact List.mem_append_left _ (hl₄ p hl c hc)
        | none =>
            have hnone : (getPredicate propId left.erase).2 = none := by
              rw [← hl₂, hl, Option.map_none]
            rw [hnone]
            refine ⟨by simp [RcQueryNode.erase, hl₁, hr₁], hr₂,
              by simp [RcQueryNode.cells, hl₃, hr₃], ?_⟩
            intro p hp c hc
            exact List.mem_append_right _ (hr₄ p hp c hc)
      · simp only [getPredicateRc, RcQueryNode.erase, getPredicate, if_neg hand]
        exact ⟨trivial, rfl, trivial, fun p hp => by cases hp⟩

theorem predicateToRangesRc_erase (p : RcPredicate) :
    predicateToRanges p.erase =
      ((predicateToRangesRc p).1.map (List.map RcPlanRangeKey.erase), (predicateToRangesRc p).2) := by
  obtain ⟨propId, t⟩ := p
  cases t with
  | inList vals =>
      simp [predicateToRanges, predicateToRangesRc, RcPredicate.erase, RcPredicateType.erase,
        Function.comp_def, equalToRc, equalTo, RcPlanRangeKey.erase]
  | _ => rfl

theorem predicateToRangesRc_cells {p : RcPredicate} {ks : List RcPlanRangeKey}
    (h : (predicateToRangesRc p).1 = some ks) : ∀ k ∈ ks, ∀ c ∈ k.cells, c ∈ p.t.cells := by
  obtain ⟨propId, t⟩ := p
  cases t with
  | inList vals =>
      obtain rfl := Option.some.inj h
      intro k hk c hc
      obtain ⟨v, hv, rfl⟩ := List.mem_map.1 hk
      refine List.mem_flatMap.2 ⟨v, hv, ?_⟩
      simpa [equalToRc, RcPlanRangeKey.cells] using hc
  | ne v => cases h
  | eq v =>
      obtain rfl := Option.some.inj h
      simp [equalToRc, RcPlanRangeKey.cells, RcPredicateType.cells]
  | rng min max minExclusive maxExclusive =>
      obtain rfl := Option.some.inj h
      simp [RcPlanRangeKey.cells, RcPredicateType.cells]
  | isNull =>
      obtain rfl := Option.some.inj h
      simp [equalToRc, RcPlanRangeKey.cells]

/-- The loop over the columns finds the same keys, and they point into the tree. -/
theorem scanKeysRc_ok {numPredicates : Nat} :
    ∀ {props : Nat} {n : RcQueryNode} {keys : List (List RcPlanRangeKey)} {t : SIQueryNode}
      {kas : List (List SIPlanRangeKey)},
      scanKeys numPredicates props n.erase (eraseKeys keys) = .ok (t, kas) → KeysIn n.cells keys →
        ∃ r keys', scanKeysRc numPredicates props n keys = .ok (r, keys') ∧ r.erase = t ∧
          eraseKeys keys' = kas ∧ r.cells = n.cells ∧ KeysIn n.cells keys'
  | 0, n, keys, t, kas, h, hin => by
      obtain ⟨rfl, rfl⟩ := Prod.mk.inj (Except.ok.inj h)
      exact ⟨n, keys, rfl, rfl, rfl, rfl, hin⟩
  | props + 1, n, keys, t, kas, h, hin => by
      have hlength : (eraseKeys keys).length = keys.length := List.length_map _
      -- The predicate that is found stays in the tree, and its keys point there.
      obtain ⟨hnode, hpred, hcells, hpcells⟩ := getPredicateRc_spec keys.length n
      simp only [scanKeys, hlength, ← hnode, ← hpred] at h
      simp only [scanKeysRc]
      cases hfound : (getPredicateRc keys.length n).2 with
      | none =>
          rw [hfound] at h
          obtain ⟨rfl, rfl⟩ := Prod.mk.inj (Except.ok.inj h)
          exact ⟨_, keys, rfl, rfl, rfl, hcells, hin⟩
      | some p =>
          simp only [hfound, Option.map_some, predicateToRangesRc_erase] at h
          by_cases hroom : keys.length < numPredicates
          · simp only [if_pos hroom] at h ⊢
            obtain ⟨ks, last, hranges⟩ : ∃ ks last, predicateToRangesRc p = (ks, last) :=
              ⟨_, _, rfl⟩
            rw [hranges] at h ⊢
            cases ks with
            | none =>
                obtain ⟨rfl, rfl⟩ := Prod.mk.inj (Except.ok.inj h)
                exact ⟨_, keys, rfl, rfl, rfl, hcells, hin⟩
            | some ks =>
                have hks : KeysIn n.cells (keys ++ [ks]) := by
                  intro ks' hks' k hk c hc
                  rcases List.mem_append.1 hks' with hks' | hks'
                  · exact hin ks' hks' k hk c hc
                  · obtain rfl := List.mem_singleton.1 hks'
                    have hrange : (predicateToRangesRc p).1 = some ks' := by rw [hranges]
                    exact hpcells p hfound c (predicateToRangesRc_cells hrange k hk c hc)
                have heraseKeys : eraseKeys keys ++ [ks.map RcPlanRangeKey.erase] =
                    eraseKeys (keys ++ [ks]) := by
                  simp [eraseKeys]
                cases last with
                | true =>
                    simp only [Option.map_some, heraseKeys] at h
                    obtain ⟨rfl, rfl⟩ := Prod.mk.inj (Except.ok.inj h)
                    exact ⟨_, _, rfl, rfl, rfl, hcells, hks⟩
                | false =>
                    simp only [Option.map_some, heraseKeys] at h
                    rw [← hcells] at hks ⊢
                    exact scanKeysRc_ok h hks
          · rw [if_neg hroom] at h
            cases h

variable {reads : List Cell}

/-- A scan range gets copies of all values of its keys. -/
theorem siPlanRangeOfRc_spec {stack : List RcPlanRangeKey}
    (h : ∀ k ∈ stack, ∀ c ∈ k.cells, c ∈ reads) :
    Spec reads [] (siPlanRangeOfRc stack)
      (Holds (fun r => r.erase = siPlanRangeOf (stack.map RcPlanRangeKey.erase))
        RcPlanRange.cells) := by
  have hcopies : Spec reads [] (gather pairCells
      (fun k : RcPlanRangeKey => do
        let min ← siValueCopy k.min
        let max ← holding min.cells (siValueCopy k.max)
        pure [(min, max)]) stack)
      (Holds (fun keys => keys.map id = stack.flatMap fun k => [(k.min, k.max)])
        (List.flatMap pairCells)) := by
    refine .gather fun k hk => ?_
    have hmin : ∀ c ∈ k.min.cells, c ∈ reads := fun c hc => h k hk c (List.mem_append_left _ hc)
    have hmax : ∀ c ∈ k.max.cells, c ∈ reads := fun c hc => h k hk c (List.mem_append_right _ hc)
    refine (siValueCopy_spec hmin).bind_holds ?_
    rintro _ rfl
    refine Spec.bind_holding (siValueCopy_spec hmax) (.refl _) (fun c hc => Or.inr hc) ?_
    rintro _ rfl
    refine .pure_holds rfl ?_
    simpa [pairCells] using List.perm_append_comm
  refine hcopies.bind_holds fun keys hkeys => .pure_holds ?_ ?_
  · rw [List.map_id, ← List.map_eq_flatMap] at hkeys
    subst hkeys
    simp [RcPlanRange.erase, siPlanRangeOf, RcPlanRangeKey.erase, Function.comp_def,
      List.getLast?_map]
  · simp only [RcPlanRange.cells, List.flatMap_map]
    exact (List.flatMap_append_perm keys _ _).symm

theorem buildKeyRc_spec {keys : List (List RcPlanRangeKey)} {stack : List RcPlanRangeKey}
    (hkeys : KeysIn reads keys) (hstack : ∀ k ∈ stack, ∀ c ∈ k.cells, c ∈ reads) :
    Spec reads [] (buildKeyRc keys stack)
      (Holds (fun rs => rs.map RcPlanRange.erase =
        buildKey (eraseKeys keys) (stack.map RcPlanRangeKey.erase))
        (List.flatMap RcPlanRange.cells)) := by
  induction keys generalizing stack with
  | nil =>
      refine (siPlanRangeOfRc_spec hstack).bind_holds fun rng hrng => .pure_holds ?_ (by simp)
      rw [List.map_singleton, hrng]
      rfl
  | cons ks keys ih =>
      have hrounds : ∀ k ∈ ks, Spec reads [] (buildKeyRc keys (stack ++ [k]))
          (Holds (fun rs => rs.map RcPlanRange.erase =
            buildKey (eraseKeys keys) (stack.map RcPlanRangeKey.erase ++ [k.erase]))
            (List.flatMap RcPlanRange.cells)) := by
        intro k hk
        have hext : ∀ k' ∈ stack ++ [k], ∀ c ∈ k'.cells, c ∈ reads := by
          intro k' hk'
          rcases List.mem_append.1 hk' with hk' | hk'
          · exact hstack k' hk'
          · obtain rfl := List.mem_singleton.1 hk'
            exact hkeys ks List.mem_cons_self _ hk
        have hrest := ih (fun ks' hks' => hkeys ks' (List.mem_cons_of_mem _ hks')) hext
        rwa [List.map_append, List.map_singleton] at hrest
      refine (Spec.gather hrounds).holds_mono fun rs hrs => ⟨?_, .refl _⟩
      rw [hrs]
      simp [eraseKeys, buildKey, List.flatMap_map]

theorem RcQueryNode.isPassthru_erase (n : RcQueryNode) : n.erase.isPassthru = n.isPassthru := by
  cases n <;> rfl

/-- Cleaning gives up the values of the nodes that it takes out, and no others. -/
theorem cleanQueryNodeRc_spec {n : RcQueryNode} {t : SIQueryNode}
    (h : cleanQueryNode n.erase = .ok t) :
    Spec reads n.cells (cleanQueryNodeRc n) (Holds (fun r => r.erase = t) RcQueryNode.cells) := by
  induction n generalizing t with
  | null =>
      obtain rfl := Except.ok.inj h
      exact .pure_holds rfl (.refl _)
  | pred passthru p =>
      obtain rfl := Except.ok.inj h
      exact .pure_holds rfl (.refl _)
  | logic passthru op left right ihl ihr =>
      cases passthru with
      | true =>
          obtain rfl := Except.ok.inj h
          exact .pure_holds rfl (.refl _)
      | false =>
          obtain ⟨tl, hl, h⟩ := bind_eq_ok.1 h
          obtain ⟨tr, hr, h⟩ := bind_eq_ok.1 h
          obtain ⟨l, hpassl, h⟩ := bind_eq_ok.1 h
          obtain ⟨r, hpassr, h⟩ := bind_eq_ok.1 h
          refine Spec.bind_holding (ihl hl) (.refl _) (fun c hc => Or.inr hc) ?_
          rintro left rfl
          refine Spec.bind_holding (ihr hr) List.perm_append_comm (fun c hc => Or.inr hc) ?_
          rintro right rfl
          rw [RcQueryNode.isPassthru_erase] at hpassl hpassr
          refine .bind_ofExcept hpassl (.bind_ofExcept hpassr ?_)
          cases l with
          | true =>
              cases r with
              | true =>
                  obtain rfl := Except.ok.inj h
                  exact .pure_holds rfl List.perm_append_comm
              | false =>
                  -- The left side is freed with the node.
                  obtain rfl := Except.ok.inj h
                  refine Spec.bind_holding (siQueryNodeFree_spec (.logic false op left .null)) ?_
                    (fun c hc => Or.inr hc) fun _ _ => ?_
                  · simpa [RcQueryNode.cells] using List.perm_append_comm
                  · exact .pure_holds rfl (.refl _)
          | false =>
              cases r with
              | true =>
                  -- The right side is.
                  obtain rfl := Except.ok.inj h
                  refine Spec.bind_holding (siQueryNodeFree_spec (.logic false op .null right)) ?_
                    (fun c hc => Or.inr hc) fun _ _ => ?_
                  · simp [RcQueryNode.cells]
                  · exact .pure_holds rfl (.refl _)
              | false =>
                  obtain rfl := Except.ok.inj h
                  exact .pure_holds rfl List.perm_append_comm

/-- The values that the query and the plan have between them. -/
def plannedCells (r : RcQuery × Option RcQueryPlan) : List Cell :=
  r.1.root.cells ++ (r.2.map RcQueryPlan.cells).getD []

/-- The ranges are built while the whole tree is there, and the tree is cleaned while the ranges
are. -/
theorem siBuildQueryPlanRc_spec {q : RcQuery} {spec : SISpec} {q' : SIQuery}
    {plan : Option SIQueryPlan} (h : siBuildQueryPlan q.erase spec = .ok (q', plan)) :
    Spec reads q.root.cells (siBuildQueryPlanRc q spec)
      (Holds (fun r => r.1.erase = q' ∧ r.2.map RcQueryPlan.erase = plan ∧
        ∀ p, r.2 = some p → ∀ n, p.filterTree = some n → n = r.1.root) plannedCells) := by
  obtain ⟨⟨t, kas⟩, hscan, h⟩ := bind_eq_ok.1 h
  obtain ⟨node, keys, hkeysRc, rfl, rfl, hcells, hin⟩ :=
    scanKeysRc_ok hscan keysIn_nil
  refine .bind_ofExcept hkeysRc ?_
  rw [← hcells] at hin ⊢
  have hempty : (eraseKeys keys).isEmpty = keys.isEmpty := by cases keys <;> rfl
  simp only [hempty] at h
  cases hnone : keys.isEmpty with
  -- Without range keys there is no plan.
  | true =>
      simp only [hnone, if_true] at h ⊢
      obtain ⟨rfl, rfl⟩ := Prod.mk.inj (Except.ok.inj h)
      refine .pure_holds ⟨rfl, rfl, fun p hp => by cases hp⟩ ?_
      simp [plannedCells]
  | false =>
      simp only [hnone, Bool.false_eq_true, if_false] at h ⊢
      -- The range keys point into the tree, which is held while the ranges copy from it.
      refine Spec.bind_holding (buildKeyRc_spec hin fun k hk => by cases hk) (.refl _)
        (fun c hc => Or.inl hc) fun ranges hranges => ?_
      obtain ⟨passthru, hpass, h⟩ := bind_eq_ok.1 h
      rw [RcQueryNode.isPassthru_erase] at hpass
      refine .bind_ofExcept hpass ?_
      cases passthru with
      | true =>
          simp only [if_true] at h ⊢
          obtain ⟨rfl, rfl⟩ := Prod.mk.inj (Except.ok.inj h)
          refine .pure_holds ⟨rfl, ?_, fun p hp n hn => ?_⟩ List.perm_append_comm
          · simp [RcQueryPlan.erase, hranges]
          · obtain rfl := Option.some.inj hp
            cases hn
      | false =>
          simp only [Bool.false_eq_true, if_false] at h ⊢
          obtain ⟨t, hclean, h⟩ := bind_eq_ok.1 h
          obtain ⟨rfl, rfl⟩ := Prod.mk.inj (Except.ok.inj h)
          refine (Spec.useEach fun c hc => Or.inl (List.mem_append_right _ hc)).bind_holds
            fun _ _ => ?_
          -- Cleaning frees nodes of the tree only.
          refine Spec.bind_holding (cleanQueryNodeRc_spec hclean) List.perm_append_comm
            (fun c hc => Or.inr hc) ?_
          rintro root rfl
          refine .pure_holds ⟨rfl, ?_, fun p hp n hn => ?_⟩ (.refl _)
          · simp [RcQueryPlan.erase, hranges]
          · obtain rfl := Option.some.inj hp
            exact (Option.some.inj hn).symm

/-- The sizes of the keys of a plan fit a byte. -/
def SIQueryPlan.ShortKeys (plan : SIQueryPlan) : Prop :=
  ∀ r ∈ plan.ranges, r.min.length ≤ 255 ∧ r.max.length ≤ 255

theorem siMultiKeyFree_spec {keys : List RcValue} (h : keys.length ≤ 255) :
    Spec reads (keys.flatMap RcValue.cells) (siMultiKeyFree keys) GivenUp := by
  have hsize : keys.length % 256 = keys.length := Nat.mod_eq_of_lt (Nat.lt_succ_of_le h)
  have htake : keys.take keys.length = keys := List.take_length
  simp only [siMultiKeyFree, hsize, htake, List.drop_length, List.flatMap_nil]
  refine Spec.bind_holding (siValueVectorFree_spec keys) (by simp) (fun _ hc => Or.inr hc)
    fun _ _ => ?_
  exact Spec.loseRefs.mono fun _ _ _ hlost => ⟨trivial, by simp [hlost.1], hlost.2⟩

theorem siQueryPlanFree_spec {plan : RcQueryPlan} (h : plan.erase.ShortKeys) :
    Spec reads plan.cells (siQueryPlanFree plan) GivenUp :=
  .freeEach fun rng hrng => by
    obtain ⟨hmin, hmax⟩ := h rng.erase (List.mem_map_of_mem hrng)
    rw [RcPlanRange.erase, List.length_map] at hmin hmax
    exact Spec.bind_holding (siMultiKeyFree_spec hmin) (.refl _) (fun _ hc => Or.inr hc)
      fun _ _ => siMultiKeyFree_spec hmax

end Plan

end Secondary
