import Secondary.CursorMemory
import Secondary.Parser.CountedSpec
import Secondary.Query.Types

/-!
# SelectCounted — the strings of a query, from `ParseQuery` to `SICursor_Free`

IDX.SELECT makes the strings of a query when it parses it, shares them between the parse tree, the
query tree and the scan ranges, and gives up the last reference to each when it frees the query and
the cursor.  The exception are the strings that an overflow of the parser's stack drops, and those of
a key with more values than a byte counts.
-/

namespace Secondary

open Lib Lib.Counting

/-! ## The code -/

/-- `SI_ParseQuery`: the query, unless the text is none. -/
def siParseQueryRc (now : Int64) (strtod : List UInt8 → Strtod) (tok : Token) (q : List UInt8)
    (spec : Option SISpec) : StringCounting (Option RcQuery) := do
  let parsed ← parseQueryRc now strtod tok q
  match parsed.1 with
  | none => pure none
  | some root => do
      let query ← translateRc spec root
      pure (some query)

/-- `SIQuery_Free` -/
def siQueryFree (q : RcQuery) : StringCounting Unit :=
  siQueryNodeFree q.root

/-- The strings that a scan of the plan compares: those of its ranges, and those of its filter. -/
def RcQueryPlan.compared (plan : RcQueryPlan) : List Cell :=
  plan.cells ++ (plan.filterTree.map RcQueryNode.cells).getD []

/-- `compoundIndex_Find`: the query as planning leaves it, and the plan and the scan context of the
cursor unless it reports an error. -/
def compoundIndexFindRc (idx : CompoundIndex) (q : RcQuery) :
    StringCounting (RcQuery × Option (RcQueryPlan × CiScanCtx)) :=
  if q.numPredicates = 0 then
    pure (q, none)
  else do
    let r ← siBuildQueryPlanRc q idx.spec
    match r.2 with
    | none => pure (r.1, none)
    | some plan => do
        useEach plan.compared
        let sctx ← ofExcept
          (CiScanCtx.startRange idx { plan := plan.erase, currentScanRange := 0, it := none })
        pure (r.1, some (plan, sctx))

/-- `while (NULL != (id = c->Next(c->ctx)))`; each call can compare any of the strings. -/
def selectLoopRc (idx : CompoundIndex) (compared : List Cell) :
    Nat → CiScanCtx → StringCounting (List SIId)
  | 0, _ => ofExcept (.error .diverges)
  | fuel + 1, sctx => do
      useEach compared
      let r ← ofExcept (scanNext idx sctx)
      match r.2 with
      | none => pure []
      | some id => do
          let rest ← selectLoopRc idx compared fuel r.1
          pure (id :: rest)

/-- How IDX.SELECT ends. -/
inductive SelectEnd
  | freed (ids : List SIId)
  /-- `SICursor_Free` reads the `Release` of a cursor that reports an error. -/
  | unset

/-- What `IndexSelectCommand` does with a query that was parsed: it scans, frees the query and then
the cursor, which has the plan. -/
def selectQueryRc (fuel : Nat) (idx : CompoundIndex) (q : RcQuery) : StringCounting SelectEnd := do
  let r ← compoundIndexFindRc idx q
  match r.2 with
  | none => do
      siQueryFree r.1
      pure .unset
  | some c => do
      let ids ← selectLoopRc idx c.1.compared fuel c.2
      holding c.1.cells (siQueryFree r.1)
      siQueryPlanFree c.1
      pure (.freed ids)

/-- `IndexSelectCommand` on an index, or nothing where the query is not parsed. -/
def indexSelectRc (now : Int64) (strtod : List UInt8 → Strtod) (tok : Token) (fuel : Nat)
    (r : RedisIndex) (qstr : RedisModuleString) : StringCounting (Option SelectEnd) := do
  let parsed ← siParseQueryRc now strtod tok qstr (some r.spec)
  match parsed with
  | none => pure none
  | some q => do
      let ending ← selectQueryRc fuel r.idx q
      pure (some ending)

/-! ## Parsing -/

/-- The query is the one that is parsed without counting.  Its tree has the strings that the parser
did not drop. -/
theorem siParseQueryRc_spec {reads : List Cell} {now : Int64} {strtod : List UInt8 → Strtod}
    {tok : Token} {query q : SIQuery} {str : List UInt8} {spec : Option SISpec}
    {msg : Option CString} (h : siParseQuery now strtod tok query str spec = .ok (true, q, msg)) :
    Spec reads [] (siParseQueryRc now strtod tok str spec) fun r refs lost =>
      ∃ q', r = some q' ∧ q'.erase = q ∧ refs.Perm q'.root.cells ∧
        (lost = [] ↔ ¬DropsString now ([], yylex strtod tok str)) := by
  obtain ⟨⟨parsed, msg'⟩, hparse, h⟩ := bind_eq_ok.1 h
  cases parsed with
  | none => cases h
  | some n =>
      obtain ⟨⟨t, k⟩, htraverse, h⟩ := bind_eq_ok.1 h
      cases h
      refine (parseQueryRc_spec hparse).bind ?_
      rintro _ refs lost ⟨root, rfl, rfl, hrefs, hlost⟩
      have htranslate : Spec reads root.cells (translateRc spec root) _ :=
        translateRc_spec (built_of_parseQuery hparse) htraverse
      refine (htranslate.perm hrefs).bind ?_
      rintro q' refs' _ ⟨herase, hrefs', rfl⟩
      exact .pure ⟨q', rfl, herase, hrefs', by rw [List.append_nil, List.append_nil, hlost]⟩

/-! ## Scanning -/

section Select

variable {reads pre compared : List Cell} {memory : CursorWords} {idx : CompoundIndex} {fuel : Nat}
  {q : RcQuery}

/-- The calls of `Next` return what they return without counting: the strings that they compare are
alive. -/
theorem selectLoopRc_spec {sctx : CiScanCtx} {c : CursorStruct} {ids : List SIId}
    (h : selectLoop idx fuel (scanCursor memory sctx) = .ok (c, ids))
    (hcompared : ∀ c ∈ compared, c ∈ pre ∨ c ∈ reads) :
    Spec reads pre (selectLoopRc idx compared fuel sctx) (Holds (· = ids) fun _ => pre) := by
  induction fuel generalizing sctx c ids with
  | zero => cases h
  | succ fuel ih =>
      rw [selectLoop, callNext_scanCursor] at h
      obtain ⟨⟨c', next⟩, hcall, h⟩ := bind_eq_ok.1 h
      obtain ⟨⟨sctx', next'⟩, hscan, hcursor⟩ := bind_eq_ok.1 hcall
      obtain ⟨rfl, rfl⟩ := Prod.mk.inj (Except.ok.inj hcursor)
      refine (Spec.useEach hcompared).bind_holds fun _ _ => .bind_ofExcept hscan ?_
      cases next' with
      | none =>
          obtain ⟨_, rfl⟩ := Prod.mk.inj (Except.ok.inj h)
          exact .pure_holds rfl (.refl _)
      | some id =>
          obtain ⟨⟨c'', rest⟩, hrest, h⟩ := bind_eq_ok.1 h
          obtain ⟨_, rfl⟩ := Prod.mk.inj (Except.ok.inj h)
          refine (ih hrest).bind_holds ?_
          rintro _ rfl
          exact .pure_holds rfl (.refl _)

/-- A fault of a scan is one of the scan without counting. -/
theorem selectLoopRc_faults {sctx : CiScanCtx} {e : Fault}
    (h : selectLoop idx fuel (scanCursor memory sctx) = .error e)
    (hcompared : ∀ c ∈ compared, c ∈ pre ∨ c ∈ reads) :
    Faults reads pre (selectLoopRc idx compared fuel sctx) e (· = []) := by
  induction fuel generalizing sctx with
  | zero =>
      obtain rfl := Except.error.inj h
      exact faults_ofExcept rfl rfl
  | succ fuel ih =>
      rw [selectLoop, callNext_scanCursor] at h
      refine (Spec.useEach hcompared).bind_holds_faults fun _ _ => ?_
      cases hscan : scanNext idx sctx with
      | error e' =>
          rw [hscan] at h
          obtain rfl := Except.error.inj h
          refine Faults.bind ?_
          exact faults_ofExcept rfl rfl
      | ok r =>
          obtain ⟨sctx', next⟩ := r
          rw [hscan] at h
          refine .bind_ofExcept rfl ?_
          cases next with
          | none => cases h
          | some id =>
              refine (ih ?_).bind
              cases hrest : selectLoop idx fuel (scanCursor memory sctx') with
              | error e' =>
                  simp only [ok_bind, hrest, error_bind] at h
                  rw [h]
              | ok r =>
                  simp only [ok_bind, hrest] at h
                  cases h

/-! ## Searching -/

/-- The strings that the query and the cursor have between them. -/
def foundCells (r : RcQuery × Option (RcQueryPlan × CiScanCtx)) : List Cell :=
  r.1.root.cells ++ (r.2.map fun c => c.1.cells).getD []

/-- The context that a scan starts with. -/
def CiScanCtx.init (plan : SIQueryPlan) : CiScanCtx where
  plan := plan
  currentScanRange := 0
  it := none

theorem siBuildQueryPlanRc_some {q' : SIQuery} {plan : SIQueryPlan}
    (hplan : siBuildQueryPlan q.erase idx.spec = .ok (q', some plan)) :
    Spec reads q.root.cells (siBuildQueryPlanRc q idx.spec)
      (Holds (fun r => ∃ p, r.2 = some p ∧ p.erase = plan ∧
        ∀ c ∈ p.compared, c ∈ r.1.root.cells ++ p.cells) plannedCells) := by
  refine (siBuildQueryPlanRc_spec hplan).holds_mono ?_
  rintro r ⟨_, herase, htree⟩
  obtain ⟨p, hp, herase⟩ := Option.map_eq_some_iff.1 herase
  refine ⟨⟨p, hp, herase, fun c hc => ?_⟩, .refl _⟩
  rcases List.mem_append.1 hc with hc | hc
  · exact List.mem_append_right _ hc
  · -- The filter is the tree of the query.
    cases hfilter : p.filterTree with
    | none => simp [hfilter] at hc
    | some n =>
        obtain rfl := htree p hp n hfilter
        simp only [hfilter, Option.map_some, Option.getD_some] at hc
        exact List.mem_append_left _ hc

/-- A search that finds a range has the strings of the tree and of the plan. -/
theorem compoundIndexFindRc_spec {q' : SIQuery} {plan : SIQueryPlan} {sctx : CiScanCtx}
    (hnum : q.numPredicates ≠ 0)
    (hplan : siBuildQueryPlan q.erase idx.spec = .ok (q', some plan))
    (hstart : CiScanCtx.startRange idx (.init plan) = .ok sctx) :
    Spec reads q.root.cells (compoundIndexFindRc idx q)
      (Holds (fun r => ∃ p, r.2 = some (p, sctx) ∧ p.erase = plan ∧
        ∀ c ∈ p.compared, c ∈ r.1.root.cells ++ p.cells) foundCells) := by
  rw [compoundIndexFindRc, if_neg hnum]
  refine (siBuildQueryPlanRc_some hplan).bind_holds ?_
  rintro ⟨q₁, _⟩ ⟨p, rfl, rfl, hcompared⟩
  refine (Spec.useEach fun c hc => Or.inl (hcompared c hc)).bind_holds fun _ _ => ?_
  exact .bind_ofExcept hstart (.pure_holds ⟨p, rfl, rfl, hcompared⟩ (.refl _))

/-- A search can fault at the start of the first range. -/
theorem compoundIndexFindRc_faults {q' : SIQuery} {plan : SIQueryPlan} {e : Fault}
    (hnum : q.numPredicates ≠ 0)
    (hplan : siBuildQueryPlan q.erase idx.spec = .ok (q', some plan))
    (hstart : CiScanCtx.startRange idx (.init plan) = .error e) :
    Faults reads q.root.cells (compoundIndexFindRc idx q) e (· = []) := by
  rw [compoundIndexFindRc, if_neg hnum]
  refine (siBuildQueryPlanRc_some hplan).bind_holds_faults ?_
  rintro ⟨q₁, _⟩ ⟨p, rfl, rfl, hcompared⟩
  refine (Spec.useEach fun c hc => Or.inl (hcompared c hc)).bind_holds_faults fun _ _ => ?_
  refine Faults.bind ?_
  exact faults_ofExcept hstart rfl

/-- A search that reports an error has the strings of the tree. -/
theorem compoundIndexFindRc_error
    (h : q.numPredicates = 0 ∨ ∃ q', siBuildQueryPlan q.erase idx.spec = .ok (q', none)) :
    Spec reads q.root.cells (compoundIndexFindRc idx q)
      (Holds (fun r => r.2 = none) foundCells) := by
  rw [compoundIndexFindRc]
  by_cases hnum : q.numPredicates = 0
  · rw [if_pos hnum]
    exact .pure_holds rfl (by simp [foundCells])
  · rw [if_neg hnum]
    obtain ⟨q', hplan⟩ := h.resolve_left hnum
    refine (siBuildQueryPlanRc_spec hplan).bind_holds ?_
    rintro ⟨q₁, plan⟩ ⟨_, hnone, _⟩
    obtain rfl := Option.map_eq_none_iff.1 hnone
    exact .pure_holds rfl (.refl _)

/-! ## IDX.SELECT -/

/-- The same end without counting. -/
def SelectEnd.result (idx : CompoundIndex) : SelectEnd → Exec (CompoundIndex × SelectReply)
  | freed ids => .ok (idx, .array ids)
  | unset => .error .unset

theorem selectQuery_scan {q₀ q' : SIQuery} {plan : SIQueryPlan} (hnum : q₀.numPredicates ≠ 0)
    (hplan : siBuildQueryPlan q₀ idx.spec = .ok (q', some plan)) :
    selectQuery memory fuel idx q₀ =
      CiScanCtx.startRange idx (.init plan) >>= fun sctx =>
        selectLoop idx fuel (scanCursor memory sctx) >>= fun l =>
          siCursorFree l.1 >>= fun _ => .ok (idx, .array l.2) := by
  simp only [selectQuery, compoundIndexFindIn_eq, compoundIndexFind, hnum, if_false, hplan, ok_bind]
  change (CiScanCtx.startRange idx (.init plan) >>= _) >>= _ >>= _ = _
  cases CiScanCtx.startRange idx (.init plan) with
  | error e => rfl
  | ok sctx => rfl

/-- The loop leaves the cursor of a scan. -/
theorem selectLoop_cursor {sctx : CiScanCtx} {c : CursorStruct} {ids : List SIId}
    (h : selectLoop idx fuel (scanCursor memory sctx) = .ok (c, ids)) :
    ∃ sctx', c = scanCursor memory sctx' := by
  induction fuel generalizing sctx ids with
  | zero => cases h
  | succ fuel ih =>
      rw [selectLoop, callNext_scanCursor] at h
      obtain ⟨⟨c', next⟩, hcall, h⟩ := bind_eq_ok.1 h
      obtain ⟨⟨sctx', next'⟩, _, hcursor⟩ := bind_eq_ok.1 hcall
      obtain ⟨rfl, rfl⟩ := Prod.mk.inj (Except.ok.inj hcursor)
      cases next' with
      | none =>
          obtain ⟨rfl, _⟩ := Prod.mk.inj (Except.ok.inj h)
          exact ⟨sctx', rfl⟩
      | some id =>
          obtain ⟨⟨c'', rest⟩, hrest, h⟩ := bind_eq_ok.1 h
          obtain ⟨rfl, _⟩ := Prod.mk.inj (Except.ok.inj h)
          exact ih hrest

/-- A search without a plan is one without a scan range. -/
theorem not_hasScanRange {spec : SISpec} {q₀ : SIQuery}
    (h : q₀.numPredicates = 0 ∨ ∃ q', siBuildQueryPlan q₀ spec = .ok (q', none)) :
    ¬HasScanRange spec q₀ := by
  intro hrange
  rcases h with hnum | ⟨q', hnone⟩
  · exact hrange.1 hnum
  · obtain ⟨pl, hpl⟩ := exists_plan_of_hasScanRange hrange hnone
    cases hpl

theorem selectQueryRc_error
    (h : q.numPredicates = 0 ∨ ∃ q', siBuildQueryPlan q.erase idx.spec = .ok (q', none)) :
    Spec reads q.root.cells (selectQueryRc fuel idx q) (Holds (· = .unset) fun _ => []) := by
  refine (compoundIndexFindRc_error h).bind_holds ?_
  rintro ⟨q₁, _⟩ rfl
  have hfree : Spec reads (foundCells (q₁, none)) (siQueryFree q₁) GivenUp :=
    (siQueryNodeFree_spec q₁.root).perm (by simp [foundCells])
  exact hfree.bind_holds fun _ _ => .pure_holds rfl (.refl _)

section Scan

variable {q' : SIQuery} {plan : SIQueryPlan} {sctx : CiScanCtx}

theorem selectQueryRc_scan {c : CursorStruct} {ids : List SIId} (hnum : q.numPredicates ≠ 0)
    (hplan : siBuildQueryPlan q.erase idx.spec = .ok (q', some plan)) (hshort : plan.ShortKeys)
    (hstart : CiScanCtx.startRange idx (.init plan) = .ok sctx)
    (hloop : selectLoop idx fuel (scanCursor memory sctx) = .ok (c, ids)) :
    Spec reads q.root.cells (selectQueryRc fuel idx q) (Holds (· = .freed ids) fun _ => []) := by
  refine (compoundIndexFindRc_spec hnum hplan hstart).bind_holds ?_
  rintro ⟨q₁, _⟩ ⟨p, rfl, rfl, hcompared⟩
  -- The ranges are still there when the query is freed, and are freed with the cursor.
  refine (selectLoopRc_spec hloop fun c hc => Or.inl (hcompared c hc)).bind_holds ?_
  rintro _ rfl
  refine Spec.bind_holding (siQueryNodeFree_spec q₁.root) (.refl _) (fun c hc => Or.inr hc)
    fun _ _ => ?_
  exact (siQueryPlanFree_spec hshort).bind_holds fun _ _ => .pure_holds rfl (.refl _)

theorem selectQueryRc_scan_faults {e : Fault} (hnum : q.numPredicates ≠ 0)
    (hplan : siBuildQueryPlan q.erase idx.spec = .ok (q', some plan))
    (hstart : CiScanCtx.startRange idx (.init plan) = .ok sctx)
    (hloop : selectLoop idx fuel (scanCursor memory sctx) = .error e) :
    Faults reads q.root.cells (selectQueryRc fuel idx q) e (· = []) := by
  refine (compoundIndexFindRc_spec hnum hplan hstart).bind_holds_faults ?_
  rintro ⟨q₁, _⟩ ⟨p, rfl, -, hcompared⟩
  exact (selectLoopRc_faults hloop fun c hc => Or.inl (hcompared c hc)).bind

end Scan

/-- What is done with a parsed query ends as without counting, whatever the counters of its strings
are, and gives up every string. -/
theorem selectQueryRc_ends (memory : CursorWords) {q₀ : SIQuery}
    (hplan : ∃ r, siBuildQueryPlan q₀ idx.spec = .ok r)
    (hshort : ∀ q' plan, siBuildQueryPlan q₀ idx.spec = .ok (q', some plan) → plan.ShortKeys) :
    (∃ a : SelectEnd, selectQuery memory fuel idx q₀ = a.result idx ∧
        ∀ q : RcQuery, q.erase = q₀ →
          Spec reads q.root.cells (selectQueryRc fuel idx q) (Holds (· = a) fun _ => [])) ∨
      ∃ e, selectQuery memory fuel idx q₀ = .error e ∧
        ∀ q : RcQuery, q.erase = q₀ →
          Faults reads q.root.cells (selectQueryRc fuel idx q) e (· = []) := by
  obtain ⟨⟨q', plan⟩, hplan⟩ := hplan
  by_cases hno : q₀.numPredicates = 0 ∨ ∃ q', siBuildQueryPlan q₀ idx.spec = .ok (q', none)
  · refine .inl ⟨.unset, selectQuery_error (not_hasScanRange hno) fuel, ?_⟩
    rintro q rfl
    exact selectQueryRc_error hno
  · obtain ⟨hnum, hsome⟩ := not_or.1 hno
    obtain ⟨pl, rfl⟩ : ∃ pl, plan = some pl := by
      cases plan with
      | none => exact absurd ⟨q', hplan⟩ hsome
      | some pl => exact ⟨pl, rfl⟩
    have hkeys := hshort q' pl hplan
    rw [selectQuery_scan hnum hplan]
    -- A fault is one of the first range or of the loop.
    cases hstart : CiScanCtx.startRange idx (.init pl) with
    | error e =>
        refine .inr ⟨e, rfl, ?_⟩
        rintro q rfl
        exact (compoundIndexFindRc_faults hnum hplan hstart).bind
    | ok sctx =>
        rw [ok_bind]
        cases hloop : selectLoop idx fuel (scanCursor memory sctx) with
        | error e =>
            refine .inr ⟨e, rfl, ?_⟩
            rintro q rfl
            exact selectQueryRc_scan_faults hnum hplan hstart hloop
        | ok l =>
            obtain ⟨c, ids⟩ := l
            obtain ⟨sctx', rfl⟩ := selectLoop_cursor hloop
            refine .inl ⟨.freed ids, rfl, ?_⟩
            rintro q rfl
            exact selectQueryRc_scan hnum hplan hkeys hstart hloop

/-- The planner does not fault on a query that `SI_ParseQuery` accepts. -/
theorem exists_plan_of_parsed {now : Int64} {strtod : List UInt8 → Strtod} {tok : Token}
    {query q : SIQuery} {str : List UInt8} {parseSpec : Option SISpec} {msg : Option CString}
    (h : siParseQuery now strtod tok query str parseSpec = .ok (true, q, msg)) (spec : SISpec) :
    ∃ r, siBuildQueryPlan q spec = .ok r := by
  obtain ⟨hparsed, hmarks, hnum⟩ := siParseQuery_shape h
  obtain ⟨q', plan, hplan, _⟩ : ∃ q' plan, siBuildQueryPlan q spec = .ok (q', plan) ∧
      (plan = none ↔ scanned spec.types.length q.root = []) :=
    siBuildQueryPlan_ok hparsed (hparsed.mono fun p hp => hp.isNotEquals) hmarks hnum
  exact ⟨(q', plan), hplan⟩

/-- A key of a scan range has a value for each column that is planned. -/
theorem shortKeys_of_parsed {now : Int64} {strtod : List UInt8 → Strtod} {tok : Token}
    {query q q' : SIQuery} {str : List UInt8} {parseSpec : Option SISpec} {msg : Option CString}
    (h : siParseQuery now strtod tok query str parseSpec = .ok (true, q, msg)) {spec : SISpec}
    (hcols : (scanned spec.types.length q.root).length ≤ 255) {plan : SIQueryPlan}
    (hplan : siBuildQueryPlan q spec = .ok (q', some plan)) : plan.ShortKeys := by
  obtain ⟨hparsed, hmarks, _⟩ := siParseQuery_shape h
  have hfor := siBuildQueryPlan_for hparsed (hparsed.mono fun p hp => hp.isNotEquals) hmarks hplan
  intro r hr
  rw [hfor.ranges] at hr
  obtain ⟨ks, hks, rfl⟩ := mem_buildKey.1 hr
  have hlength := hks.length_eq
  rw [List.length_map] at hlength
  simp only [siPlanRangeOf, List.length_map]
  omega

end Select

section Main

variable {now : Int64} {strtod : List UInt8 → Strtod} {tok : Token} {r : RedisIndex}
  {qstr : RedisModuleString} {q : SIQuery} {msg : Option CString}

/-- IDX.SELECT ends as without counting.  It has given up every string then, but for those that the
parser dropped. -/
theorem indexSelectRc_ends (memory : CursorWords)
    (h : siParseQuery now strtod tok siNewQuery qstr (some r.spec) = .ok (true, q, msg))
    (hcols : (scanned r.idx.spec.types.length q.root).length ≤ 255) (fuel : Nat) :
    (∃ a : SelectEnd, selectQuery memory fuel r.idx q = a.result r.idx ∧
        Spec [] [] (indexSelectRc now strtod tok fuel r qstr) fun b refs lost =>
          b = some a ∧ refs = [] ∧ (lost = [] ↔ ¬DropsString now ([], yylex strtod tok qstr))) ∨
      ∃ e, selectQuery memory fuel r.idx q = .error e ∧
        Faults [] [] (indexSelectRc now strtod tok fuel r qstr) e fun lost =>
          (lost = [] ↔ ¬DropsString now ([], yylex strtod tok qstr)) := by
  have hparse : Spec [] [] (siParseQueryRc now strtod tok qstr (some r.spec)) _ :=
    siParseQueryRc_spec h
  rcases selectQueryRc_ends memory (exists_plan_of_parsed h r.idx.spec)
    (fun _ _ => shortKeys_of_parsed h hcols) with
    ⟨a, hresult, hselect⟩ | ⟨e, hresult, hselect⟩
  · refine .inl ⟨a, hresult, hparse.bind ?_⟩
    rintro _ refs lost ⟨q', rfl, herase, hrefs, hlost⟩
    refine ((hselect q' herase).perm hrefs).bind ?_
    rintro _ refs' _ ⟨rfl, hnone, rfl⟩
    refine .pure ⟨rfl, hnone.eq_nil, ?_⟩
    rw [List.append_nil, List.append_nil, hlost]
  · refine .inr ⟨e, hresult, hparse.bind_faults ?_⟩
    rintro _ refs lost ⟨q', rfl, herase, hrefs, hlost⟩
    refine ((hselect q' herase).perm hrefs).bind.mono ?_
    rintro _ rfl
    rw [List.append_nil, hlost]

/-- Counting changes nothing: IDX.SELECT ends as without it, and a fault is one of the scan. -/
theorem indexSelectRc_result (memory : CursorWords)
    (h : siParseQuery now strtod tok siNewQuery qstr (some r.spec) = .ok (true, q, msg))
    (hcols : (scanned r.idx.spec.types.length q.root).length ≤ 255) (fuel : Nat) :
    (∃ a counters, (indexSelectRc now strtod tok fuel r qstr .empty).out = .ok (some a, counters) ∧
        selectQuery memory fuel r.idx q = a.result r.idx) ∨
      ∃ e, (indexSelectRc now strtod tok fuel r qstr .empty).out = .error (.other e) ∧
        selectQuery memory fuel r.idx q = .error e := by
  rcases indexSelectRc_ends memory h hcols fuel with ⟨a, hresult, hspec⟩ | ⟨e, hresult, hfaults⟩
  · obtain ⟨_, counters, _, _, hout, ⟨rfl, _⟩, _⟩ := hspec .empty [] (by simp) owns_empty
    exact .inl ⟨a, counters, hout, hresult⟩
  · obtain ⟨_, _, hout, _⟩ := hfaults .empty [] (by simp) owns_empty
    exact .inr ⟨e, hout, hresult⟩

/-- What is seen of the parser is seen of the command. -/
theorem mem_log_indexSelectRc {fuel : Nat} {h : Counters} {s : Snapshot}
    (hs : s ∈ (parseQueryRc now strtod tok qstr h).log) :
    s ∈ (indexSelectRc now strtod tok fuel r qstr h).log :=
  Traced.mem_log_bind (Traced.mem_log_bind hs _) _

end Main

/-! ## Two queries -/

/-- An index of the spec. -/
def indexOf (spec : SISpec) (idx : CompoundIndex) : RedisIndex where
  kind := .abstractIndex
  flags := 0
  spec := spec
  idx := idx

/-- `strtod` where there is no number to read. -/
def noFloat : List UInt8 → Strtod :=
  fun _ => { val := 0, failed := false, noDigits := true }

/-- Whether `SI_ParseQuery` accepts a query. -/
def parses (spec : SISpec) (str : List UInt8) : Bool :=
  match siParseQuery 0 noFloat (.intval 0) siNewQuery str (some spec) with
  | .ok (true, _, _) => true
  | _ => false

/-- Conditions on two columns, of which one is scanned. -/
def likeAndEither : List UInt8 :=
  ascii "$1 LIKE 'ab%' AND $2 = 'x' OR $2 = 'y'"

/-- 95 open parentheses, and a list of values that the stack has no room for.  The parser goes on
with `$1 = 1`. -/
def overflowingList : List UInt8 :=
  List.replicate 95 40 ++ ascii "$1 IN ('a' , $1 = 1"

end Secondary
