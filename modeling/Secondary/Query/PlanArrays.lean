import Secondary.Lib.Cells
import Secondary.Query.Types

/-!
# Query.PlanArrays — the arrays of `SI_BuildQueryPlan`

The planner keeps the range keys of the columns in `keys` and their numbers in `keyNums`, arrays as
long as the query has predicates, and counts through them with `stack`, which has a place for each
planned column.  Here these are arrays whose cells can be unassigned, and every access is one that
can fault.  The planner of `Query.Plan`, which has lists in their place, is what they compute.
-/

namespace Secondary

open Lib

/-! ## The code -/

structure PlanArrays where
  /-- The arrays that `predicateToRanges` returns; NULL where there is none. -/
  keys : Cells (Option (List SIPlanRangeKey))
  keyNums : Cells Nat

/-- The variables of the loop over the columns. -/
structure ColumnLoop where
  propId : Nat
  root : SIQueryNode
  arrays : PlanArrays

/-- `while (propId < spec->numProps && ...)`, at most `fuel` times. -/
def columnLoop (numProps : Nat) : Nat → ColumnLoop → Exec ColumnLoop
  | 0, _ => .error .diverges
  | fuel + 1, s =>
      if s.propId < numProps then
        let r := getPredicate s.propId s.root
        match r.2 with
        | none => .ok { s with root := r.1 }
        | some pred => do
            let ranges := predicateToRanges pred
            -- `predicateToRanges` writes the number through the pointer that it gets.
            let keyNums ← s.arrays.keyNums.write .bounds s.propId
              ((ranges.1.map List.length).getD 0)
            let keys ← s.arrays.keys.write .bounds s.propId ranges.1
            let arrays := { keys := keys, keyNums := keyNums }
            match ranges with
            | (none, _) => .ok { s with root := r.1, arrays := arrays }
            | (some _, true) => .ok { propId := s.propId + 1, root := r.1, arrays := arrays }
            | (some _, false) =>
                columnLoop numProps fuel { propId := s.propId + 1, root := r.1, arrays := arrays }
      else
        .ok s

/-- `keys[i][stack[i]]` -/
def rangeKeyAt (arrays : PlanArrays) (stack : Cells Nat) (i : Nat) : Exec SIPlanRangeKey := do
  let key ← arrays.keys.read .bounds .unset i
  let ka ← orFault key .null
  let j ← stack.read .bounds .unset i
  orFault ka[j]? .bounds

/-- `stack` and `result` of `buildKey`. -/
structure KeyStack where
  stack : Cells Nat
  result : List SIPlanRange

/-- `buildKey`; `levels` is `numKeys - keyIdx`. -/
def buildKeyAt (arrays : PlanArrays) (numKeys : Nat) : Nat → Nat → KeyStack → Exec KeyStack
  | 0, _, s => do
      let rng ← (List.range numKeys).mapM (rangeKeyAt arrays s.stack)
      .ok { s with result := s.result ++ [siPlanRangeOf rng] }
  | levels + 1, keyIdx, s => do
      let num ← arrays.keyNums.read .bounds .unset keyIdx
      (List.range num).foldlM
        (fun s i => do
          let stack ← s.stack.write .bounds keyIdx i
          buildKeyAt arrays numKeys levels (keyIdx + 1) { s with stack := stack })
        s

/-- The loop that frees the arrays of range keys. -/
def freeKeys (numPredicates : Nat) (arrays : PlanArrays) : Exec Unit :=
  (List.range numPredicates).foldlM
    (fun _ i => do
      let _ ← arrays.keys.read .bounds .unset i
      .ok ())
    ()

/-- The part of `SI_BuildQueryPlan` behind the loop over the columns. -/
def planOfColumns (q : SIQuery) (s : ColumnLoop) : Exec (SIQuery × Option SIQueryPlan) :=
  if s.propId = 0 then
    .ok ({ q with root := s.root }, none)
  else do
    let built ← buildKeyAt s.arrays s.propId s.propId 0
      { stack := Cells.fresh s.propId, result := [] }
    let passthru ← s.root.isPassthru
    let root ← if passthru then .ok s.root else cleanQueryNode s.root
    freeKeys q.numPredicates s.arrays
    .ok ({ q with root := root },
      some { ranges := built.result, filterTree := if passthru then none else some root })

/-- What the variables are before the loop: `keys` is filled with NULL, `keyNums` is not assigned. -/
def ColumnLoop.init (q : SIQuery) : ColumnLoop where
  propId := 0
  root := q.root
  arrays := { keys := Cells.filled q.numPredicates none, keyNums := Cells.fresh q.numPredicates }

/-- `SI_BuildQueryPlan` on its arrays, with `fuel` passes of the loop over the columns. -/
def siBuildQueryPlanOn (fuel : Nat) (q : SIQuery) (spec : SISpec) :
    Exec (SIQuery × Option SIQueryPlan) := do
  let s ← columnLoop spec.numProps fuel (ColumnLoop.init q)
  planOfColumns q s

/-! ## What the arrays hold -/

/-- The arrays hold the range keys of the first columns, and are as long as there are predicates. -/
structure PlanArrays.Holds (arrays : PlanArrays) (numPredicates : Nat)
    (kas : List (List SIPlanRangeKey)) : Prop where
  keys : ∃ free, kas.length + free = numPredicates ∧
    arrays.keys = Cells.of (kas.map some) (List.replicate free (some none))
  keyNums : ∃ rest, kas.length + rest.length = numPredicates ∧
    arrays.keyNums = Cells.of (kas.map List.length) rest

namespace PlanArrays.Holds

variable {arrays : PlanArrays} {numPredicates : Nat} {kas : List (List SIPlanRangeKey)}

theorem init (q : SIQuery) : (ColumnLoop.init q).arrays.Holds q.numPredicates [] where
  keys := ⟨q.numPredicates, by simp, rfl⟩
  keyNums := ⟨List.replicate q.numPredicates none, by simp, rfl⟩

/-- There is a place for one more column in both arrays as long as there are fewer columns than
predicates; what is written there is the range keys of the column or, where it has none, NULL. -/
theorem write (h : arrays.Holds numPredicates kas) (hlt : kas.length < numPredicates)
    (ka : Option (List SIPlanRangeKey)) :
    ∃ keyNums' keys',
      arrays.keyNums.write Fault.bounds kas.length ((ka.map List.length).getD 0) = .ok keyNums' ∧
        arrays.keys.write Fault.bounds kas.length ka = .ok keys' ∧
        Holds { keys := keys', keyNums := keyNums' } numPredicates (kas ++ ka.toList) := by
  obtain ⟨⟨free, hfree, hkeys⟩, rest, hrest, hnums⟩ := h
  obtain ⟨free, rfl⟩ : ∃ free', free = free' + 1 := ⟨free - 1, by omega⟩
  obtain ⟨c, rest, rfl⟩ : ∃ c rest', rest = c :: rest' := by
    cases rest with
    | nil =>
        simp only [List.length_nil] at hrest
        omega
    | cons c rest => exact ⟨c, rest, rfl⟩
  rw [List.length_cons] at hrest
  rw [hkeys, hnums]
  have hnum := Cells.write_of Fault.bounds (kas.map List.length) rest c
    ((ka.map List.length).getD 0)
  have hkey := Cells.write_of Fault.bounds (kas.map some) (List.replicate free (some none))
    (some none) ka
  rw [List.length_map] at hnum hkey
  refine ⟨_, _, hnum, hkey, ?_, ?_⟩
  · cases ka with
    | none => exact ⟨free + 1, by simp; omega, by simp [Cells.of, List.replicate_succ]⟩
    | some ka => exact ⟨free, by simp; omega, by simp⟩
  · cases ka with
    | none => exact ⟨some 0 :: rest, by simp; omega, by simp [Cells.of]⟩
    | some ka => exact ⟨rest, by simp; omega, by simp⟩

/-- There is no place where the columns are as many as the predicates. -/
theorem write_full (h : arrays.Holds numPredicates kas) (hle : numPredicates ≤ kas.length)
    (num : Nat) : arrays.keyNums.write Fault.bounds kas.length num = .error .bounds := by
  obtain ⟨rest, hrest, hnums⟩ := h.keyNums
  obtain rfl : rest = [] := List.eq_nil_of_length_eq_zero (by omega)
  have hwrite := Cells.write_of_nil Fault.bounds (kas.map List.length) num
  rw [List.length_map] at hwrite
  rw [hnums, hwrite]

theorem read_keys (h : arrays.Holds numPredicates kas) {i : Nat} {ka : List SIPlanRangeKey}
    (hi : kas[i]? = some ka) : arrays.keys.read Fault.bounds .unset i = .ok (some ka) := by
  obtain ⟨free, _, hkeys⟩ := h.keys
  rw [hkeys]
  exact Cells.read_of _ _ (by simp [hi])

theorem read_keyNums (h : arrays.Holds numPredicates kas) {i : Nat} {ka : List SIPlanRangeKey}
    (hi : kas[i]? = some ka) : arrays.keyNums.read Fault.bounds .unset i = .ok ka.length := by
  obtain ⟨rest, _, hnums⟩ := h.keyNums
  rw [hnums]
  exact Cells.read_of _ _ (by simp [hi])

/-- The whole of `keys` can be read: it was filled before the loop. -/
theorem freeKeys_ok (h : arrays.Holds numPredicates kas) : freeKeys numPredicates arrays = .ok () := by
  obtain ⟨free, hfree, hkeys⟩ := h.keys
  have hread : ∀ i < numPredicates, ∃ key, arrays.keys.read Fault.bounds .unset i = .ok key := by
    intro i hi
    have hall : arrays.keys = Cells.of (kas.map some ++ List.replicate free none) [] := by
      simp [hkeys, Cells.of]
    have hlen : i < (kas.map some ++ List.replicate free none).length := by
      simp only [List.length_append, List.length_map, List.length_replicate]
      omega
    rw [hall]
    exact ⟨_, Cells.read_of _ _ (List.getElem?_eq_getElem hlen)⟩
  obtain ⟨_, hrun, _⟩ := foldlM_range_ok (n := numPredicates) (s := ())
    (f := fun _ i => do
      let _ ← arrays.keys.read Fault.bounds .unset i
      .ok ())
    (fun _ _ => True) trivial fun i hi _ _ => by
      obtain ⟨key, hkey⟩ := hread i hi
      exact ⟨(), by rw [hkey, ok_bind], trivial⟩
  exact hrun

end PlanArrays.Holds

/-! ## The loop over the columns -/

/-- The loop on the arrays is the loop on lists, and `numPredicates + 1` passes are enough: each
pass but the last takes up a place of the arrays. -/
theorem columnLoop_eq (numPredicates numProps : Nat) :
    ∀ (fuel props : Nat) (kas : List (List SIPlanRangeKey)) (root : SIQueryNode)
      (arrays : PlanArrays), arrays.Holds numPredicates kas → props + kas.length = numProps →
      kas.length ≤ numPredicates → numPredicates < fuel + kas.length →
      (∀ e, scanKeys numPredicates props root kas = .error e →
        columnLoop numProps fuel { propId := kas.length, root := root, arrays := arrays } =
          .error e) ∧
      ∀ root' kas', scanKeys numPredicates props root kas = .ok (root', kas') →
        ∃ arrays', columnLoop numProps fuel
            { propId := kas.length, root := root, arrays := arrays } =
              .ok { propId := kas'.length, root := root', arrays := arrays' } ∧
          arrays'.Holds numPredicates kas' ∧ kas'.length ≤ numPredicates := by
  intro fuel
  induction fuel with
  | zero =>
      intro props kas root arrays _ _ hle hfuel
      omega
  | succ fuel ih =>
      intro props kas root arrays hholds hprops hle hfuel
      cases props with
      | zero =>
          -- All columns are planned.
          have hend : ¬kas.length < numProps := by omega
          refine ⟨fun e he => by simp [scanKeys] at he, fun root' kas' hscan => ?_⟩
          simp only [scanKeys, Except.ok.injEq, Prod.mk.injEq] at hscan
          obtain ⟨rfl, rfl⟩ := hscan
          exact ⟨arrays, by simp [columnLoop, hend], hholds, hle⟩
      | succ props =>
          have hmore : kas.length < numProps := by omega
          cases hget : (getPredicate kas.length root).2 with
          | none =>
              refine ⟨fun e he => by simp [scanKeys, hget] at he, fun root' kas' hscan => ?_⟩
              simp only [scanKeys, hget, Except.ok.injEq, Prod.mk.injEq] at hscan
              obtain ⟨rfl, rfl⟩ := hscan
              exact ⟨arrays, by simp [columnLoop, hmore, hget], hholds, hle⟩
          | some pred =>
              by_cases hroom : kas.length < numPredicates
              · obtain ⟨keyNums', keys', hnum, hkey, hholds'⟩ :=
                  hholds.write hroom (predicateToRanges pred).1
                rcases hranges : predicateToRanges pred with ⟨_ | ka, last⟩
                · -- A predicate without ranges ends the loop.
                  simp only [hranges, Option.map_none, Option.getD_none, Option.toList_none,
                    List.append_nil] at hnum hkey hholds'
                  refine ⟨fun e he => by simp [scanKeys, hget, hroom, hranges] at he,
                    fun root' kas' hscan => ?_⟩
                  simp only [scanKeys, hget, hroom, hranges, if_true, Except.ok.injEq,
                    Prod.mk.injEq] at hscan
                  obtain ⟨rfl, rfl⟩ := hscan
                  exact ⟨_, by simp [columnLoop, hmore, hget, hranges, hnum, hkey],
                    hholds', hle⟩
                · simp only [hranges, Option.map_some, Option.getD_some,
                    Option.toList_some] at hnum hkey hholds'
                  have hlen : (kas ++ [ka]).length = kas.length + 1 := by simp
                  cases last with
                  | true =>
                      refine ⟨fun e he => by simp [scanKeys, hget, hroom, hranges] at he,
                        fun root' kas' hscan => ?_⟩
                      simp only [scanKeys, hget, hroom, hranges, if_true, Except.ok.injEq,
                        Prod.mk.injEq] at hscan
                      obtain ⟨rfl, rfl⟩ := hscan
                      refine ⟨_, ?_, hholds', by omega⟩
                      simp [columnLoop, hmore, hget, hranges, hnum, hkey]
                  | false =>
                      have hscan : scanKeys numPredicates (props + 1) root kas =
                          scanKeys numPredicates props (getPredicate kas.length root).1
                            (kas ++ [ka]) := by
                        simp [scanKeys, hget, hroom, hranges]
                      have hloop : columnLoop numProps (fuel + 1)
                          { propId := kas.length, root := root, arrays := arrays } =
                          columnLoop numProps fuel
                            { propId := (kas ++ [ka]).length,
                              root := (getPredicate kas.length root).1,
                              arrays := { keys := keys', keyNums := keyNums' } } := by
                        simp [columnLoop, hmore, hget, hranges, hnum, hkey]
                      rw [hscan, hloop]
                      exact ih props (kas ++ [ka]) _ _ hholds' (by omega) (by omega) (by omega)
              · have hfull := hholds.write_full (Nat.le_of_not_lt hroom)
                refine ⟨fun e he => ?_, fun root' kas' hscan => by
                  simp [scanKeys, hget, hroom] at hscan⟩
                simp only [scanKeys, hget, hroom, if_false, Except.error.injEq] at he
                subst he
                simp [columnLoop, hmore, hget, hfull]

/-! ## The product of the range keys -/

/-- `stack` says `js` for the first columns, and these are the places of `chosen` among the range
keys of the columns. -/
structure PickedBy (kas : List (List SIPlanRangeKey)) (js : List Nat)
    (chosen : List SIPlanRangeKey) : Prop where
  length_js : js.length = kas.length
  length_chosen : chosen.length = kas.length
  get : ∀ (i : Nat) (key : SIPlanRangeKey), chosen[i]? = some key →
    ∃ (ka : List SIPlanRangeKey) (j : Nat),
      kas[i]? = some ka ∧ js[i]? = some j ∧ ka[j]? = some key

theorem PickedBy.append {kas : List (List SIPlanRangeKey)} {js : List Nat}
    {chosen : List SIPlanRangeKey} (h : PickedBy kas js chosen) {ka : List SIPlanRangeKey} {j : Nat}
    {key : SIPlanRangeKey} (hj : ka[j]? = some key) :
    PickedBy (kas ++ [ka]) (js ++ [j]) (chosen ++ [key]) where
  length_js := by simp [h.length_js]
  length_chosen := by simp [h.length_chosen]
  get := by
    intro i key' hkey'
    rcases Nat.lt_trichotomy i kas.length with hlt | rfl | hgt
    · rw [List.getElem?_append_left (by rw [h.length_chosen]; exact hlt)] at hkey'
      obtain ⟨ka', j', hka', hj', hget⟩ := h.get i key' hkey'
      refine ⟨ka', j', ?_, ?_, hget⟩
      · rwa [List.getElem?_append_left hlt]
      · rwa [List.getElem?_append_left (by rw [h.length_js]; exact hlt)]
    · obtain rfl : key = key' := by simpa [← h.length_chosen] using hkey'
      exact ⟨ka, j, by simp, by simp [← h.length_js], hj⟩
    · have hout : (chosen ++ [key])[i]? = none := by
        rw [List.getElem?_eq_none_iff]
        simp only [List.length_append, List.length_singleton, h.length_chosen]
        omega
      rw [hout] at hkey'
      cases hkey'

/-- `buildKey` reads what was written: it appends the ranges of all choices for the columns that are
left, and changes no place of `stack` before them. -/
theorem buildKeyAt_ok {arrays : PlanArrays} {numPredicates : Nat}
    {kas : List (List SIPlanRangeKey)} (h : arrays.Holds numPredicates kas) :
    ∀ (after before : List (List SIPlanRangeKey)) (js : List Nat) (chosen : List SIPlanRangeKey)
      (rest : List (Option Nat)) (result : List SIPlanRange), kas = before ++ after →
      PickedBy before js chosen → rest.length = after.length →
      ∃ rest', rest'.length = after.length ∧
        buildKeyAt arrays kas.length after.length before.length
            { stack := Cells.of js rest, result := result } =
          .ok { stack := Cells.of js rest', result := result ++ buildKey after chosen } := by
  intro after
  induction after with
  | nil =>
      intro before js chosen rest result hkas hpicked hrest
      obtain rfl : kas = before := by simpa using hkas
      have hread : (List.range kas.length).mapM (rangeKeyAt arrays (Cells.of js rest)) =
          .ok chosen := by
        rw [← hpicked.length_chosen]
        refine mapM_range_ok chosen fun i key hkey => ?_
        obtain ⟨ka, j, hka, hj, hget⟩ := hpicked.get i key hkey
        simp [rangeKeyAt, h.read_keys hka, Cells.read_of _ _ hj, hget]
      exact ⟨rest, hrest, by simp [buildKeyAt, hread, buildKey]⟩
  | cons ka after ih =>
      intro before js chosen rest result hkas hpicked hrest
      have hnum : arrays.keyNums.read Fault.bounds .unset before.length = .ok ka.length :=
        h.read_keyNums (by simp [hkas])
      -- After `k` passes the ranges of the first `k` range keys of the column are there.
      obtain ⟨s, hrun, rest', hrest', rfl⟩ := foldlM_range_ok (n := ka.length)
        (f := fun (s : KeyStack) i => do
          let stack ← s.stack.write Fault.bounds before.length i
          buildKeyAt arrays kas.length after.length (before.length + 1) { s with stack := stack })
        (s := { stack := Cells.of js rest, result := result })
        (fun k s => ∃ rest' : List (Option Nat), rest'.length = (ka :: after).length ∧
          s = { stack := Cells.of js rest',
                result := result ++ (ka.take k).flatMap fun key => buildKey after (chosen ++ [key]) })
        ⟨rest, hrest, by simp⟩ (by
          rintro k hk _ ⟨rest', hrest', rfl⟩
          obtain ⟨c, rest'', rfl⟩ : ∃ c rest'', rest' = c :: rest'' :=
            List.exists_cons_of_length_eq_add_one hrest'
          have hwrite := Cells.write_of Fault.bounds js rest'' c k
          rw [hpicked.length_js] at hwrite
          have hkey : ka[k]? = some ka[k] := List.getElem?_eq_getElem hk
          obtain ⟨rest₃, hrest₃, hbuild⟩ := ih (before ++ [ka]) (js ++ [k]) (chosen ++ [ka[k]]) rest''
            (result ++ (ka.take k).flatMap fun key => buildKey after (chosen ++ [key]))
            (by simp [hkas]) (hpicked.append hkey) (by simpa using hrest')
          rw [List.length_append, List.length_singleton] at hbuild
          refine ⟨_, by rw [hwrite, ok_bind]; exact hbuild, some k :: rest₃, by simp [hrest₃], ?_⟩
          rw [List.take_succ_eq_append_getElem hk, List.flatMap_append, List.flatMap_singleton]
          simp [Cells.of])
      refine ⟨rest', hrest', ?_⟩
      rw [List.length_cons, buildKeyAt, hnum, ok_bind, hrun, List.take_length]
      rfl

/-! ## The planner -/

/-- On its arrays the planner does what `siBuildQueryPlan` says, fault or no fault, in at most one
pass more than there are predicates. -/
theorem siBuildQueryPlanOn_eq (q : SIQuery) (spec : SISpec) :
    siBuildQueryPlanOn (q.numPredicates + 1) q spec = siBuildQueryPlan q spec := by
  obtain ⟨herror, hok⟩ := columnLoop_eq q.numPredicates spec.numProps
    (q.numPredicates + 1) spec.numProps [] q.root (ColumnLoop.init q).arrays
    (PlanArrays.Holds.init q) rfl (Nat.zero_le _) (Nat.lt_succ_self _)
  cases hscan : scanKeys q.numPredicates spec.numProps q.root [] with
  | error e =>
      have hloop : columnLoop spec.numProps (q.numPredicates + 1) (ColumnLoop.init q) = .error e :=
        herror e hscan
      simp [siBuildQueryPlanOn, siBuildQueryPlan, hscan, hloop]
  | ok r =>
      obtain ⟨root, kas⟩ := r
      obtain ⟨arrays, hloop, hholds, _⟩ := hok root kas hscan
      have hloop : columnLoop spec.numProps (q.numPredicates + 1) (ColumnLoop.init q) =
          .ok { propId := kas.length, root := root, arrays := arrays } := hloop
      cases kas with
      | nil => simp [siBuildQueryPlanOn, siBuildQueryPlan, hscan, hloop, planOfColumns]
      | cons ka kas =>
          obtain ⟨rest, _, hbuild⟩ := buildKeyAt_ok hholds (ka :: kas) [] [] []
            (List.replicate (ka :: kas).length none) [] rfl
            ⟨rfl, rfl, fun i key hkey => by simp at hkey⟩ (by simp)
          have hbuild : buildKeyAt arrays (ka :: kas).length (ka :: kas).length 0
              { stack := Cells.fresh (ka :: kas).length, result := [] } =
                .ok { stack := Cells.of [] rest, result := buildKey (ka :: kas) [] } := hbuild
          have hne : (ka :: kas).length ≠ 0 := by simp
          simp only [siBuildQueryPlanOn, siBuildQueryPlan, hscan, hloop, ok_bind, planOfColumns,
            hne, if_false, hbuild, List.isEmpty_cons, Bool.false_eq_true]
          cases hpass : root.isPassthru with
          | error e => rfl
          | ok passthru =>
              cases passthru with
              | true => simp [hholds.freeKeys_ok]
              | false =>
                  simp only [ok_bind, Bool.false_eq_true, if_false, hholds.freeKeys_ok]

/-- On a query that `SI_ParseQuery` accepts the planner stays inside its arrays and reads no cell
that it has not assigned, whatever the columns are; its loop ends after at most `numPredicates`
steps that add a column. -/
theorem siBuildQueryPlanOn_parsed {now : Int64} {strtod : List UInt8 → Strtod} {tok : Token}
    {query q : SIQuery} {str : List UInt8} {parseSpec : Option SISpec} {msg : Option CString}
    (h : siParseQuery now strtod tok query str parseSpec = .ok (true, q, msg)) (spec : SISpec) :
    (∃ s, columnLoop spec.numProps (q.numPredicates + 1) (ColumnLoop.init q) = .ok s ∧
        s.propId ≤ q.numPredicates) ∧
      ∃ q' plan, siBuildQueryPlanOn (q.numPredicates + 1) q spec = .ok (q', plan) := by
  obtain ⟨hparsed, hmarks, hnum⟩ := siParseQuery_shape h
  obtain ⟨_, hok⟩ := columnLoop_eq q.numPredicates spec.numProps
    (q.numPredicates + 1) spec.numProps [] q.root (ColumnLoop.init q).arrays
    (PlanArrays.Holds.init q) rfl (Nat.zero_le _) (Nat.lt_succ_self _)
  -- Each step takes a conjunct, and each conjunct has a leaf that was counted.
  have hconjuncts : (conjuncts q.root).length ≤ q.numPredicates :=
    Nat.le_trans (SIQueryNode.length_conjuncts_le hparsed) hnum
  obtain ⟨⟨root, kas⟩, hscan⟩ : ∃ r, scanKeys q.numPredicates spec.numProps q.root [] = .ok r :=
    scanKeys_ok (by simpa using hconjuncts)
  obtain ⟨arrays, hloop, _, hle⟩ := hok root kas hscan
  obtain ⟨q', plan, hplan, _⟩ : ∃ q' plan, siBuildQueryPlan q spec = .ok (q', plan) ∧
      (plan = none ↔ scanned spec.types.length q.root = []) :=
    siBuildQueryPlan_ok hparsed (hparsed.mono fun p hp => hp.isNotEquals) hmarks hnum
  exact ⟨⟨_, hloop, hle⟩, q', plan, (siBuildQueryPlanOn_eq q spec).trans hplan⟩

/-- `$1 = 1 AND $2 = 2`, as it is parsed. -/
def twoColumnsEqual : SIQuery where
  root := .logic false .opAnd
    (.pred false { propId := 0, t := .eq (.int64 1) })
    (.pred false { propId := 1, t := .eq (.int64 2) })
  numPredicates := 2

theorem parse_twoColumnsEqual :
    siParseQuery 0 (fun _ => { val := 0, failed := false, noDigits := true }) (.intval 0) siNewQuery
        (ascii "$1 = 1 AND $2 = 2") none = .ok (true, twoColumnsEqual, none) := rfl

/-- One column for a query on two. -/
theorem siBuildQueryPlanOn_twoColumnsEqual :
    (∃ s, columnLoop 1 3 (ColumnLoop.init twoColumnsEqual) = .ok s ∧ s.propId ≤ 2) ∧
      ∃ q' plan, siBuildQueryPlanOn 3 twoColumnsEqual (oneColumn .int64 0) = .ok (q', plan) :=
  siBuildQueryPlanOn_parsed parse_twoColumnsEqual (oneColumn .int64 0)

end Secondary
