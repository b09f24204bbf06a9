import Secondary.HashIndex
import Secondary.Query.PlanExact

/-!
# CursorMemory — IDX.SELECT, and searches that fail

`compoundIndex_Find` leaves two fields of its cursor unassigned when it reports an error, and both
IDX.SELECT and `HashIndex_GetIdsFromQuery` free the cursor then.  This module says exactly for which
queries this happens.
-/

namespace Secondary

open Lib

/-! ## IDX.SELECT -/

/-- The reply of IDX.SELECT. -/
inductive SelectReply
  | wrongArity
  | error (msg : List UInt8)
  | array (ids : List SIId)

/-- `while (NULL != (id = c->Next(c->ctx)))`: the ids that are sent. -/
def selectLoop (idx : CompoundIndex) : Nat → CursorStruct → Exec (CursorStruct × List SIId)
  | 0, _ => .error .diverges
  | fuel + 1, c => do
      let r ← c.callNext idx
      match r.2 with
      | none => .ok (r.1, [])
      | some id => do
          let rest ← selectLoop idx fuel r.1
          .ok (rest.1, id :: rest.2)

/-- What `IndexSelectCommand` does with a query that was parsed.  Nothing in it writes to the
index. -/
def selectQuery (memory : CursorWords) (fuel : Nat) (idx : CompoundIndex) (q : SIQuery) :
    Exec (CompoundIndex × SelectReply) := do
  let r ← compoundIndexFindIn memory idx q
  let error ← r.2.error.read .unset
  if error = siCursorOk then do
    let l ← selectLoop idx fuel r.2
    siCursorFree l.1
    .ok (idx, .array l.2)
  else do
    siCursorFree r.2
    .ok (idx, .error (ascii "Error performing query"))

/-- `IndexSelectCommand` -/
def indexSelectCommand (host : Host) (fuel : Nat) (db : Keyspace)
    (argv : List RedisModuleString) : Exec (Keyspace × SelectReply) :=
  if argv.length < 4 then
    .ok (db, .wrongArity)
  else do
    let index ← orFault argv[1]? .bounds
    match db index with
    | some (.index r) => do
        let qstr ← orFault argv[3]? .bounds
        let parsed ← siParseQuery host.now host.strtod host.tok siNewQuery qstr (some r.spec)
        match parsed.1, parsed.2.2 with
        | false, some parseError => .ok (db, .error parseError.bytes)
        | false, none => .ok (db, .error (ascii "Error parsing query string"))
        | true, _ => do
            let sel ← selectQuery host.memory fuel r.idx parsed.2.1
            .ok (db.setIndex index { r with idx := sel.1 }, sel.2)
    | _ => .ok (db, .error (ascii errormsgWrongtype))

/-! ## When a search fails -/

/-- `compoundIndex_Find` returns a cursor that reports an error. -/
def ReportsError (memory : CursorWords) (idx : CompoundIndex) (q : SIQuery) : Prop :=
  ∃ q' c, compoundIndexFindIn memory idx q = .ok (q', c) ∧ c.error = .assigned siCursorError

/-- The query has a predicate, and the first predicate on the first column that AND nodes lead to
has scan ranges. -/
def HasScanRange (spec : SISpec) (q : SIQuery) : Prop :=
  q.numPredicates ≠ 0 ∧ 0 < spec.numProps ∧
    ∃ p, (conjuncts q.root).find? (isPredOn 0) = some (.pred false p) ∧ p.t.isNotEquals = false

section Failing

variable {memory : CursorWords} {idx : CompoundIndex} {q : SIQuery}

/-- The loop over the columns only adds keys. -/
theorem length_le_of_scanKeys {numPredicates : Nat} :
    ∀ {props : Nat} {n n' : SIQueryNode} {keys keys' : List (List SIPlanRangeKey)},
      scanKeys numPredicates props n keys = .ok (n', keys') → keys.length ≤ keys'.length
  | 0, n, n', keys, keys', h => by
      obtain ⟨_, rfl⟩ := Prod.mk.inj (Except.ok.inj h)
      exact Nat.le_refl _
  | props + 1, n, n', keys, keys', h => by
      simp only [scanKeys] at h
      split at h
      · obtain ⟨_, rfl⟩ := Prod.mk.inj (Except.ok.inj h)
        exact Nat.le_refl _
      split at h
      · split at h
        · obtain ⟨_, rfl⟩ := Prod.mk.inj (Except.ok.inj h)
          exact Nat.le_refl _
        · obtain ⟨_, rfl⟩ := Prod.mk.inj (Except.ok.inj h)
          simp
        · have hle := length_le_of_scanKeys h
          simp only [List.length_append, List.length_singleton] at hle
          omega
      · cases h

/-- A query with a scan range has a plan, if it is planned without a fault. -/
theorem exists_plan_of_hasScanRange {spec : SISpec} {q' : SIQuery} {plan : Option SIQueryPlan}
    (h : HasScanRange spec q) (hplan : siBuildQueryPlan q spec = .ok (q', plan)) :
    ∃ pl, plan = some pl := by
  obtain ⟨_, hprops, p, hfind, hne⟩ := h
  obtain ⟨⟨root, keys⟩, hscan, hplan⟩ := bind_eq_ok.1 hplan
  -- The first column adds a key.
  have hkeys : keys ≠ [] := by
    obtain ⟨props, hprops⟩ : ∃ props, spec.numProps = props + 1 := ⟨spec.numProps - 1, by omega⟩
    rw [hprops] at hscan
    cases hget : (getPredicate 0 q.root).2 with
    | none =>
        rw [(getPredicate_none hget).1] at hfind
        cases hfind
    | some p' =>
        obtain ⟨rfl, _⟩ : p' = p ∧ True := by
          have hsome := (getPredicate_some hget).1.symm.trans hfind
          simpa using hsome
        by_cases hroom : 0 < q.numPredicates
        · cases hrange : p'.t.isRange with
          | true =>
              simp only [scanKeys, List.length_nil, Nat.cast_zero, hget, hroom, if_true,
                predicateToRanges_eq hne, hrange, Except.ok.injEq, Prod.mk.injEq,
                List.nil_append] at hscan
              simp [← hscan.2]
          | false =>
              simp only [scanKeys, List.length_nil, Nat.cast_zero, hget, hroom, if_true,
                predicateToRanges_eq hne, hrange, List.nil_append] at hscan
              have hle := length_le_of_scanKeys hscan
              rintro rfl
              simp at hle
        · simp [scanKeys, hget, hroom] at hscan
  simp only [List.isEmpty_iff, hkeys, if_false] at hplan
  obtain ⟨passthru, _, hplan⟩ := bind_eq_ok.1 hplan
  cases passthru with
  | true => exact ⟨_, (Prod.mk.inj (Except.ok.inj hplan)).2.symm⟩
  | false =>
      obtain ⟨root', _, hplan⟩ := bind_eq_ok.1 hplan
      exact ⟨_, (Prod.mk.inj (Except.ok.inj hplan)).2.symm⟩

/-- A query with predicates and no scan range has none, and is planned without a fault. -/
theorem no_plan_of_not_hasScanRange {spec : SISpec} (hnum : q.numPredicates ≠ 0)
    (h : ¬HasScanRange spec q) : ∃ q', siBuildQueryPlan q spec = .ok (q', none) := by
  obtain ⟨root, hscan⟩ : ∃ root, scanKeys q.numPredicates spec.numProps q.root [] =
      .ok (root, []) := by
    cases hprops : spec.numProps with
    | zero => exact ⟨q.root, rfl⟩
    | succ props =>
        cases hget : (getPredicate 0 q.root).2 with
        | none => exact ⟨(getPredicate 0 q.root).1, by simp [scanKeys, hget]⟩
        | some p =>
            -- The predicate is `!=`, which has no range.
            have hroom : 0 < q.numPredicates := Nat.pos_of_ne_zero hnum
            have hne : p.t.isNotEquals = true := by
              by_contra hne
              exact h ⟨hnum, by omega, p, (getPredicate_some hget).1, by simpa using hne⟩
            obtain ⟨w, hw⟩ : ∃ w, p.t = .ne w := by
              cases hp : p.t <;> simp [SIPredicateType.isNotEquals, hp] at hne
              exact ⟨_, rfl⟩
            exact ⟨(getPredicate 0 q.root).1, by
              simp [scanKeys, hget, hroom, predicateToRanges, hw]⟩
  exact ⟨{ q with root := root }, by simp [siBuildQueryPlan, hscan]⟩

/-- The cursor of a search that fails. -/
theorem compoundIndexFindIn_error (memory : CursorWords) (h : ¬HasScanRange idx.spec q) :
    ∃ q', compoundIndexFindIn memory idx q =
      .ok (q', { siNewCursor memory none with error := .assigned siCursorError }) := by
  by_cases hnum : q.numPredicates = 0
  · exact ⟨q, by simp [compoundIndexFindIn, hnum]⟩
  · obtain ⟨q', hplan⟩ := no_plan_of_not_hasScanRange hnum h
    exact ⟨q', by simp [compoundIndexFindIn, hnum, hplan]⟩

/-- A search fails exactly on a query without a scan range. -/
theorem reportsError_iff : ReportsError memory idx q ↔ ¬HasScanRange idx.spec q := by
  constructor
  · rintro ⟨q', c, hfind, herror⟩ hrange
    obtain ⟨⟨q₁, c₁⟩, hfind₁, hc⟩ := bind_eq_ok.1 (compoundIndexFindIn_eq ▸ hfind)
    obtain ⟨rfl, rfl⟩ := Prod.mk.inj (Except.ok.inj hc)
    simp only [compoundIndexFind, hrange.1, if_false] at hfind₁
    obtain ⟨⟨q₂, plan⟩, hplan, hfind₁⟩ := bind_eq_ok.1 hfind₁
    obtain ⟨pl, rfl⟩ := exists_plan_of_hasScanRange hrange hplan
    obtain ⟨sctx, _, hcursor⟩ := bind_eq_ok.1 hfind₁
    obtain ⟨rfl, rfl⟩ := Prod.mk.inj (Except.ok.inj hcursor)
    simp [cursorIn, siCursorOk, siCursorError] at herror
  · intro hno
    obtain ⟨q', hfind⟩ := compoundIndexFindIn_error memory hno
    exact ⟨q', _, hfind, rfl⟩

/-- IDX.SELECT frees the cursor of a search that failed, and reads a field that nobody assigned. -/
theorem selectQuery_error (h : ¬HasScanRange idx.spec q) (fuel : Nat) :
    selectQuery memory fuel idx q = .error .unset := by
  obtain ⟨q', hfind⟩ := compoundIndexFindIn_error memory h
  simp [selectQuery, hfind, siCursorOk, siCursorError, siCursorFree, siNewCursor, mallocCursor]

/-- So does collecting ids. -/
theorem hashIndexGetIdsFromQuery_error (h : ¬HasScanRange idx.spec q) :
    hashIndexGetIdsFromQuery memory idx (some q) = .error .unset := by
  obtain ⟨q', hfind⟩ := compoundIndexFindIn_error memory h
  simp [hashIndexGetIdsFromQuery, hfind, siCursorOk, siCursorError, siCursorFree, siNewCursor,
    mallocCursor]

end Failing

/-- After a search that failed each caller ends, without having used a field that was never
assigned and with the index as it was, exactly where no search fails: when the query has a scan
range. -/
theorem failed_search_released_iff (memory : CursorWords) (fuel : Nat) (idx : CompoundIndex)
    (q : SIQuery) :
    ((ReportsError memory idx q → ∃ reply, selectQuery memory fuel idx q = .ok (idx, reply)) ↔
        HasScanRange idx.spec q) ∧
      ((ReportsError memory idx q →
          ∃ ids, hashIndexGetIdsFromQuery memory idx (some q) = .ok (idx, ids)) ↔
        HasScanRange idx.spec q) := by
  rw [reportsError_iff]
  by_cases h : HasScanRange idx.spec q
  · simp [h]
  · simp [h, selectQuery_error, hashIndexGetIdsFromQuery_error]

/-- IDX.SELECT with a query that has no scan range uses such a field, whatever the index holds. -/
theorem indexSelectCommand_unset {host : Host} {fuel : Nat} {db : Keyspace}
    {cmd index sep qstr : RedisModuleString} {rest : List RedisModuleString} {r : RedisIndex}
    {q : SIQuery} {msg : Option CString} (hindex : db index = some (.index r))
    (hparse : siParseQuery host.now host.strtod host.tok siNewQuery qstr (some r.spec) =
      .ok (true, q, msg)) (hspec : r.idx.spec = r.spec) (h : ¬HasScanRange r.spec q) :
    indexSelectCommand host fuel db (cmd :: index :: sep :: qstr :: rest) =
      .error .unset := by
  have hselect : selectQuery host.memory fuel r.idx q = .error .unset :=
    selectQuery_error (hspec ▸ h) fuel
  simp [indexSelectCommand, hindex, hparse, hselect]

/-- Two columns of 64-bit integers. -/
def twoInt64Spec : SISpec where
  properties := [{ type := .int64, flags := 0, name := none },
    { type := .int64, flags := 0, name := none }]
  flags := 0

/-- `$2 = 1`, a query that asks nothing of the first column. -/
def secondIsOne : SIQuery where
  root := .pred false { propId := 1, t := .eq (.int64 1) }
  numPredicates := 1

/-- `$2 = 1` on an empty index of two columns: whatever `malloc` returns, the search fails and both
callers then use a field that was never assigned. -/
theorem select_second_column_unset :
    ∃ idx, siNewCompoundIndex twoInt64Spec = .ok idx ∧ ∀ memory fuel,
      ReportsError memory idx secondIsOne ∧
        selectQuery memory fuel idx secondIsOne = .error .unset ∧
        hashIndexGetIdsFromQuery memory idx (some secondIsOne) = .error .unset := by
  obtain ⟨idx, hnew, hspec⟩ : ∃ idx, siNewCompoundIndex twoInt64Spec = .ok idx ∧
      idx.spec = twoInt64Spec := ⟨_, rfl, rfl⟩
  have hno : ¬HasScanRange idx.spec secondIsOne := by
    rintro ⟨_, _, p, hfind, _⟩
    cases hfind
  exact ⟨idx, hnew, fun memory fuel =>
    ⟨reportsError_iff.2 hno, selectQuery_error hno fuel, hashIndexGetIdsFromQuery_error hno⟩⟩

end Secondary
