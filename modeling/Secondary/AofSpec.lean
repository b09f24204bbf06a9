import Secondary.Aof
import Secondary.QueryExact
import Secondary.TraverseSpec

/-!
# AofSpec — what executing the IDX.INSERT of an AOF restores

The values of a record are those of the key of the id's node, written column by column.  They are
read back as the tuple of the id where the node uses that tuple itself, no value is NULL, and the
truth values are 0 or 1.  The index that executes the record must have room for the tuple; the
records of a whole rewrite find it so, one after the other, where no two tuples compare equal.
-/

namespace Secondary

open Lib

/-! ## Values of a record -/

theorem aofValues_eq : ∀ (mk : SIMultiKey),
    aofValues mk.length mk = .ok (mk.map siValueToRMString)
  | [] => rfl
  | v :: mk => by simp [aofValues, aofValues_eq mk]

/-- The values are parsed column by column. -/
theorem parseArgs_eq_some_iff {strtod : List UInt8 → Strtod} {ps : List SIIndexProperty} :
    ∀ {mk k : SIMultiKey}, KeyOk (ps.map SIIndexProperty.type) mk →
      KeyOk (ps.map SIIndexProperty.type) k → places mk = places k →
      (∀ p ∈ ps, p.type ∈ exactTypes) →
      (parseArgs strtod ps (mk.map siValueToRMString) = some k ↔
        mk = k ∧ ∀ v ∈ k, Restorable v) := by
  induction ps with
  | nil =>
      intro mk k hmk hk _ _
      cases hmk
      cases hk
      simp [parseArgs]
  | cons p ps ih =>
      intro mk k hmk hk hplaces htypes
      rcases hmk with _ | ⟨hv, hmk⟩
      rcases hk with _ | ⟨hw, hk⟩
      rename_i v mk w k
      obtain ⟨hplace, hplaces⟩ : v.place = w.place ∧ places mk = places k := by
        simpa using hplaces
      -- One value by its own type, the others by the induction hypothesis.
      have hone : siParseValue strtod p.type (siValueToRMString v) = some w ↔
          v = w ∧ Restorable w := parse_eq_some_iff hv hw hplace (htypes p (by simp))
      have hrest := ih hmk hk hplaces fun p hp => htypes p (List.mem_cons_of_mem _ hp)
      have hparse : parseArgs strtod (p :: ps) ((v :: mk).map siValueToRMString) = some (w :: k) ↔
          siParseValue strtod p.type (siValueToRMString v) = some w ∧
            parseArgs strtod ps (mk.map siValueToRMString) = some k := by
        simp only [parseArgs, List.map_cons, Option.bind_eq_bind, Option.bind_eq_some_iff,
          Option.some.injEq, List.cons.injEq]
        constructor
        · rintro ⟨x, hx, y, hy, rfl, rfl⟩
          exact ⟨hx, hy⟩
        · rintro ⟨hx, hy⟩
          exact ⟨w, hx, k, hy, rfl, rfl⟩
      rw [hparse, hone, hrest]
      simp only [List.cons.injEq, List.forall_mem_cons]
      tauto

/-- What is parsed has the types of its columns. -/
theorem keyOk_parseArgs {strtod : List UInt8 → Strtod} {ps : List SIIndexProperty} :
    ∀ {args : List RedisModuleString} {vals : List SIValue},
      (∀ p ∈ ps, p.type ∈ exactTypes) → parseArgs strtod ps args = some vals →
      vals.length = ps.length → KeyOk (ps.map SIIndexProperty.type) vals := by
  induction ps with
  | nil =>
      intro args vals _ _ hlen
      obtain rfl := List.length_eq_zero_iff.1 hlen
      exact .nil
  | cons p ps ih =>
      intro args vals htypes hparse hlen
      cases args with
      | nil =>
          obtain rfl : [] = vals := by simpa [parseArgs] using hparse
          cases hlen
      | cons a args =>
          simp only [parseArgs, Option.bind_eq_bind, Option.bind_eq_some_iff,
            Option.some.injEq] at hparse
          obtain ⟨v, hv, vs, hvs, rfl⟩ := hparse
          exact .cons (Or.inr (parse_type (htypes p (by simp)) hv))
            (ih (fun p hp => htypes p (List.mem_cons_of_mem _ hp)) hvs (by simpa using hlen))

/-! ## Executing a record -/

theorem length_parseArgs {strtod : List UInt8 → Strtod} :
    ∀ {ps : List SIIndexProperty} {args : List RedisModuleString} {vals : List SIValue},
      parseArgs strtod ps args = some vals → vals.length = args.length
  | _, [], vals, h => by
      obtain rfl : [] = vals := by simpa [parseArgs] using h
      rfl
  | [], _ :: _, _, h => by simp [parseArgs] at h
  | p :: ps, a :: args, vals, h => by
      simp only [parseArgs, Option.bind_eq_bind, Option.bind_eq_some_iff, Option.some.injEq] at h
      obtain ⟨_, _, vs, hvs, rfl⟩ := h
      simpa using length_parseArgs hvs

theorem keyNotShared_of_content {spec : SISpec} {idx : CompoundIndex} (h : Inv spec idx) {id : SIId}
    (hnone : idx.content id = none) : KeyNotShared idx id := by
  obtain ⟨_, bs, hinv⟩ := h
  intro r hl
  obtain ⟨k, hk⟩ := hinv.exists_content.1 (Finmap.mem_of_lookup_eq_some hl)
  simp [hnone] at hk

/-- No tuple of the index compares equal to `k`, other than `k` itself under the id. -/
def CompoundIndex.RoomFor (idx : CompoundIndex) (id : SIId) (k : SIMultiKey) : Prop :=
  ∀ id' k', idx.content id' = some k' → CompareEqual idx.cmpFuncs k' k → id' = id ∧ k' = k

/-- An ADD that drops no shared key: the tuple is stored, unless the index is UNIQUE and holds one
that compares equal. -/
theorem apply_add {spec : SISpec} {idx : CompoundIndex} (h : Inv spec idx) {id : SIId}
    (hfree : spec.isUnique = true ∨ KeyNotShared idx id) {vals : SIMultiKey}
    (hvals : KeyOk spec.types vals) (level : Level) :
    ∃ idx' code, compoundIndexApply idx [({ type := .chAdd, id := id, v := vals }, level)] =
        .ok (idx', code) ∧ Inv spec idx' ∧ Added idx id vals idx' code ∧
      (spec.isUnique = true → ∀ k, idx.content id = some k → CompareEqual idx.cmpFuncs k vals →
        ∀ id', idx'.content id' = idx.content id') := by
  obtain ⟨rfl, bs, hinv⟩ := h
  have hadd : ∃ idx' bs' code, compoundIndexApplyAdd idx id vals level = .ok (idx', code) ∧
      IndexInv idx' bs' ∧ SameSpec idx idx' ∧ Added idx id vals idx' code ∧
      (idx.spec.isUnique = true → ∀ k, idx.content id = some k →
        CompareEqual idx.cmpFuncs k vals → ∀ id', idx'.content id' = idx.content id') := by
    cases hu : idx.spec.isUnique with
    | true =>
        obtain ⟨idx', bs', code, hrun, hinv', hsame, hadded, hown⟩ :=
          hinv.applyAdd_unique hu hvals id level
        exact ⟨idx', bs', code, hrun, hinv', hsame, hadded, fun _ => hown⟩
    | false =>
        have hkey : KeyNotShared idx id := hfree.resolve_left (by simp [hu])
        obtain ⟨idx', bs', code, hrun, hinv', hsame, hadded⟩ :=
          hinv.applyAdd hvals (fun r hl => hinv.vals_of_keyNotShared hkey hl) level
        exact ⟨idx', bs', code, hrun, hinv', hsame, hadded, fun h => by cases h⟩
  obtain ⟨idx', bs', code, hrun, hinv', hsame, hadded, hown⟩ := hadd
  have hcode : code ≠ siIndexNotfound := by
    cases hadded <;> decide
  refine ⟨idx', code, ?_, ⟨hsame.spec, bs', hinv'⟩, hadded, hown⟩
  by_cases hok : code = siIndexOk
  · simp [compoundIndexApply, compoundIndexApplyChange, hinv.numFuncs, hvals.length_eq, hrun, hok]
  · simp [compoundIndexApply, compoundIndexApplyChange, hinv.numFuncs, hvals.length_eq, hrun, hok,
      hcode]

/-- IDX.INSERT is accepted when its values are parsed and the change is applied. -/
theorem insert_ok_iff {strtod : List UInt8 → Strtod} {target target' : RedisIndex}
    {cmd key : RedisModuleString} {id : SIId} {args : List RedisModuleString} (hargs : args ≠ [])
    {level : Level} :
    indexAddCommand strtod (some target) (cmd :: key :: id.bytes :: args) level =
        .ok (some target', .simpleString "OK") ↔
      ∃ vals idx', parseArgs strtod target.spec.properties args = some vals ∧
        compoundIndexApply target.idx [({ type := .chAdd, id := id, v := vals }, level)] =
          .ok (idx', siIndexOk) ∧ target' = { target with idx := idx' } := by
  have hlen : ¬(cmd :: key :: id.bytes :: args).length < 4 := by
    have := List.length_pos_iff.2 hargs
    simp only [List.length_cons]
    omega
  rw [indexAddCommand, if_neg hlen]
  simp only [List.getElem?_cons_succ, List.getElem?_cons_zero, orFault_some, ok_bind,
    List.drop_succ_cons, List.drop_zero, cString_bytes]
  cases hparse : parseArgs strtod target.spec.properties args with
  | none => simp
  | some vals =>
      simp only [Option.some.injEq, exists_eq_left', exists_and_left, bind_eq_ok]
      constructor
      · rintro ⟨⟨idx', code⟩, happly, hreply⟩
        by_cases hok : code = siIndexOk
        · subst hok
          simp only [ne_eq, not_true_eq_false, if_false, Except.ok.injEq, Prod.mk.injEq,
            Option.some.injEq, and_true] at hreply
          exact ⟨idx', happly, hreply.symm⟩
        · simp [hok] at hreply
      · rintro ⟨idx', happly, rfl⟩
        exact ⟨_, happly, by simp⟩

/-- An IDX.INSERT whose values are parsed as `k`, where there is room for `k`, stores `k` and leaves
the other ids. -/
theorem insert_stores {strtod : List UInt8 → Strtod} {spec : SISpec} {target : RedisIndex}
    (hspec : target.spec = spec) (h : Inv spec target.idx) {id : SIId}
    (hfree : spec.isUnique = true ∨ KeyNotShared target.idx id) {k : SIMultiKey}
    (hk : KeyOk spec.types k) (hroom : spec.isUnique = true → target.idx.RoomFor id k)
    {args : List RedisModuleString} (hargs : args ≠ [])
    (hparse : parseArgs strtod spec.properties args = some k) (cmd key : RedisModuleString)
    (level : Level) :
    ∃ target', indexAddCommand strtod (some target) (cmd :: key :: id.bytes :: args) level =
        .ok (some target', .simpleString "OK") ∧ target'.spec = spec ∧ Inv spec target'.idx ∧
      ∀ x, target'.idx.content x = if x = id then some k else target.idx.content x := by
  obtain ⟨idx', code, happly, hinv, hadded, _⟩ := apply_add h hfree hk level
  have hu : target.idx.spec.isUnique = spec.isUnique := by rw [h.1]
  suffices hstored : code = siIndexOk ∧
      ∀ x, idx'.content x = if x = id then some k else target.idx.content x by
    obtain ⟨rfl, hcontent⟩ := hstored
    exact ⟨{ target with idx := idx' },
      (insert_ok_iff hargs).2 ⟨k, idx', by rw [hspec, hparse], happly, rfl⟩, hspec, hinv, hcontent⟩
  cases hadded with
  | duplicate unique conflict _ _ _ _ =>
      obtain ⟨id', k', hne, hk', hequal⟩ := conflict
      exact absurd (hroom (hu ▸ unique) id' k' hk' hequal).1 hne
  | kept unique own equal _ content =>
      obtain ⟨_, rfl⟩ := hroom (hu ▸ unique) id _ own equal
      refine ⟨rfl, fun x => ?_⟩
      rw [content x]
      split_ifs with hx
      · rw [hx, own]
      · rfl
  | stored _ content => exact ⟨rfl, content⟩

/-! ## Records -/

/-- The IDX.INSERT that is emitted for a call, executed on `target`, is accepted and stores `k`. -/
def RecordRestores (strtod : List UInt8 → Strtod) (key : RedisModuleString) (idx : CompoundIndex)
    (numProps : Nat) (target : RedisIndex) (level : Level) (id : SIId) (obj : Option KeyRef)
    (k : SIMultiKey) : Prop :=
  ∃ argv target', aofVisitor key idx numProps id obj = .ok argv ∧
    indexAddCommand strtod (some target) argv level = .ok (some target', .simpleString "OK") ∧
    target'.idx.content id = some k

/-- The visitor gets an id with the key of its node. -/
theorem mem_visits {bs : List (Bucket KeyRef SIId)} {id : SIId} {obj : Option KeyRef} :
    (id, obj) ∈ visits bs → ∃ b ∈ bs, id ∈ b.vals ∧ obj = some b.key := by
  simp only [visits, visitsOf, List.mem_flatMap, List.mem_map, Prod.mk.injEq]
  rintro ⟨b, hb, _, _, id', hid', rfl, rfl⟩
  exact ⟨b, hb, hid', rfl⟩

/-- The record of an id has the values of the key of its node. -/
theorem aofVisitor_eq {idx : CompoundIndex} {bs : List (Bucket KeyRef SIId)} (h : IndexInv idx bs)
    {b : Bucket KeyRef SIId} (hb : b ∈ bs) (key : RedisModuleString) (id : SIId) :
    ∃ mk, idx.keys.cell b.key = some mk ∧ KeyOk idx.spec.types mk ∧
      aofVisitor key idx idx.spec.numProps id (some b.key) =
        .ok (ascii "IDX.INSERT" :: key :: id.bytes :: mk.map siValueToRMString) := by
  obtain ⟨mk, hcell, hmk⟩ := h.key_live hb
  have hvalues := aofValues_eq mk
  have hmklen : mk.length = idx.spec.numProps := by
    rw [hmk.length_eq, SISpec.types, List.length_map, SISpec.numProps]
  rw [hmklen] at hvalues
  exact ⟨mk, hcell, hmk, by simp [aofVisitor, readKey_of_cell hcell, hvalues]⟩

/-- An id that has a node of its own has the node's key as its tuple. -/
theorem content_of_single {idx : CompoundIndex} {bs : List (Bucket KeyRef SIId)}
    (h : IndexInv idx bs) {b : Bucket KeyRef SIId} (hb : b ∈ bs) {id : SIId}
    (hone : b.vals = [id]) : idx.content id = idx.keys.cell b.key := by
  obtain ⟨id', hid', hl⟩ := h.owner b hb
  obtain rfl : id' = id := by simpa [hone] using hid'
  simp [CompoundIndex.content, hl]

/-- Where no key was shared when it was dropped, and the record itself drops none, the record of an
id restores its tuple if and only if the id's node uses that very tuple as its key, the tuple has a
column, no value is NULL, the truth values are 0 or 1, and in a UNIQUE index there is room for the
tuple. -/
theorem aofRecord_restores_iff {spec : SISpec} {idx₀ idx : CompoundIndex}
    (hnew : siNewCompoundIndex spec = .ok idx₀) (css : List (List (SIChange × Level)))
    (htyped : ∀ cs ∈ css, Typed spec cs)
    (hkeys : spec.isUnique = true ∨ Every applyStep KeysNotShared idx₀ css)
    (hrun : run applyStep idx₀ css = .ok idx) (hexact : ∀ t ∈ spec.types, t ∈ exactTypes)
    {calls : List (SIId × Option KeyRef)} (hcalls : compoundIndexTraverse idx = .ok calls)
    {id : SIId} {obj : Option KeyRef} (hcall : (id, obj) ∈ calls) {k : SIMultiKey}
    (hk : idx.content id = some k) {target : RedisIndex} (hspec : target.spec = spec)
    (htarget : Inv spec target.idx)
    (hfree : spec.isUnique = true ∨ KeyNotShared target.idx id)
    (strtod : List UInt8 → Strtod) (key : RedisModuleString) (level : Level) :
    RecordRestores strtod key idx spec.numProps target level id obj k ↔
      obj.bind idx.keys.cell = some k ∧ k ≠ [] ∧ (∀ v ∈ k, Restorable v) ∧
        (spec.isUnique = true → target.idx.RoomFor id k) := by
  obtain ⟨idx₁, hrun₁, ⟨rfl, bs, h⟩, _, _⟩ := (stands_new hnew).run htyped hkeys
  obtain rfl : idx = idx₁ := Except.ok.inj (hrun.symm.trans hrun₁)
  obtain rfl : visits bs = calls :=
    Except.ok.inj ((compoundIndexTraverse_spec h.rep h.nonempty).symm.trans hcalls)
  obtain ⟨b, hb, hid, rfl⟩ := mem_visits hcall
  obtain ⟨mk, hcell, hmk, hvisit⟩ := aofVisitor_eq h hb key id
  have hok := h.content_ok hk
  have hplaces : places mk = places k := by
    have hkey := places_key h hb hid hk
    simpa [CompoundIndex.places, refPlaces, hcell] using hkey
  have htypes : ∀ p ∈ idx.spec.properties, p.type ∈ exactTypes :=
    fun p hp => hexact p.type (List.mem_map_of_mem hp)
  have hcellk : (some b.key).bind idx.keys.cell = some k ↔ mk = k := by
    simp [hcell]
  have hlen : mk.length = k.length := by rw [hmk.length_eq, hok.length_eq]
  have hargs : mk.map siValueToRMString ≠ [] ↔ k ≠ [] := by
    rw [← List.length_pos_iff, List.length_map, hlen, List.length_pos_iff]
  rw [hcellk]
  constructor
  · rintro ⟨argv, target', hargv, hadd, hcontent⟩
    obtain rfl := Except.ok.inj (hvisit.symm.trans hargv)
    have hne : k ≠ [] := by
      rintro rfl
      obtain rfl := List.length_eq_zero_iff.1 hlen
      simp [indexAddCommand] at hadd
    obtain ⟨vals, idx', hvals, happly, rfl⟩ := (insert_ok_iff (hargs.2 hne)).1 hadd
    rw [hspec] at hvals
    have hokvals : KeyOk idx.spec.types vals := by
      refine keyOk_parseArgs htypes hvals ?_
      rw [length_parseArgs hvals, List.length_map, hmk.length_eq, SISpec.types, List.length_map]
    obtain ⟨idx'', code, happly', _, hadded, hown⟩ := apply_add htarget hfree hokvals level
    obtain ⟨rfl, hcode⟩ := Prod.mk.inj (Except.ok.inj (happly.symm.trans happly'))
    obtain ⟨htspec, bs', hinv⟩ := htarget
    have hparse := fun hplaces => (parseArgs_eq_some_iff hmk hokvals hplaces htypes).1 hvals
    -- What was parsed is `k`, also where a UNIQUE index has kept what it held.
    obtain ⟨rfl, halone⟩ : vals = k ∧
        (idx.spec.isUnique = true → ¬target.idx.Conflict id vals) := by
      cases hadded with
      | duplicate _ _ _ _ _ _ => exact absurd hcode (by decide)
      | kept unique own equal alone content =>
          refine ⟨?_, fun _ => alone⟩
          rw [htspec] at unique
          obtain ⟨x, hx⟩ := h.unique unique b hb
          obtain rfl : id = x := by simpa [hx] using hid
          obtain rfl : k = mk :=
            Option.some.inj (hk.symm.trans ((content_of_single h hb hx).trans hcell))
          obtain rfl := Option.some.inj (own.symm.trans ((content id).symm.trans hcontent))
          rw [compareEqual_iff hinv.cmpFuncs (htspec ▸ hok) (htspec ▸ hokvals)] at equal
          exact (hparse equal).1.symm
      | stored alone content =>
          rw [htspec] at alone
          rw [content id, if_pos rfl] at hcontent
          exact ⟨Option.some.inj hcontent, alone⟩
    obtain ⟨hmkk, hrestorable⟩ := hparse hplaces
    refine ⟨hmkk, hne, hrestorable, fun hu id' k' hk' hequal => ?_⟩
    have hid' : id' = id := by
      by_contra hne
      exact halone hu ⟨id', k', hne, hk', hequal⟩
    subst hid'
    have hkept := hown hu k' hk' hequal id'
    exact ⟨rfl, Option.some.inj (hk'.symm.trans (hkept.symm.trans hcontent))⟩
  · rintro ⟨rfl, hne, hrestorable, hroom⟩
    obtain ⟨target', hadd, _, _, hcontent⟩ := insert_stores hspec htarget hfree hok hroom
      (hargs.2 hne) ((parseArgs_eq_some_iff hmk hok rfl htypes).2 ⟨rfl, hrestorable⟩)
      (ascii "IDX.INSERT") key level
    exact ⟨_, target', hvisit, hadd, by rw [hcontent, if_pos rfl]⟩

/-- A `strtod` that finds no number. -/
def noStrtod (_ : List UInt8) : Strtod where
  val := 0
  failed := false
  noDigits := true

/-- Two ids of a unique index.  The record of the second one is executed where that of the first one
has been. -/
theorem aofRecord_restores_iff_pair :
    ∃ idx₀ idx earlier calls obj,
      siNewCompoundIndex (twoColumns .string .int32 siIndexUnique) = .ok idx₀ ∧
      run applyStep idx₀ [[addPair idA (.string (ascii "foo")) (.int32 5),
        addPair idB (.string [98, 0, 97]) (.int32 (-7))]] = .ok idx ∧
      run applyStep idx₀ [[addPair idA (.string (ascii "foo")) (.int32 5)]] = .ok earlier ∧
      compoundIndexTraverse idx = .ok calls ∧ (idB, obj) ∈ calls ∧
      RecordRestores noStrtod (ascii "k") idx 2
        { kind := .abstractIndex, flags := siIndexUnique,
          spec := twoColumns .string .int32 siIndexUnique, idx := earlier }
        level1 idB obj [.string [98, 0, 97], .int32 (-7)] := by
  obtain ⟨idx₀, idx, earlier, calls, hnew, hrun, hearlier, hcalls, hcall, hk, hcell, hri, hfirst,
    hfuncs⟩ : ∃ idx₀ idx earlier calls,
      siNewCompoundIndex (twoColumns .string .int32 siIndexUnique) = .ok idx₀ ∧
      run applyStep idx₀ [[addPair idA (.string (ascii "foo")) (.int32 5),
        addPair idB (.string [98, 0, 97]) (.int32 (-7))]] = .ok idx ∧
      run applyStep idx₀ [[addPair idA (.string (ascii "foo")) (.int32 5)]] = .ok earlier ∧
      compoundIndexTraverse idx = .ok calls ∧ (idB, some 1) ∈ calls ∧
      idx.content idB = some [.string [98, 0, 97], .int32 (-7)] ∧
      idx.keys.cell 1 = some [.string [98, 0, 97], .int32 (-7)] ∧
      earlier.ri = Finmap.insert idA 0 ∅ ∧
      earlier.keys.cell 0 = some [.string (ascii "foo"), .int32 5] ∧
      earlier.cmpFuncs = [siCmpString, siCmpInt] :=
    ⟨_, _, _, _, rfl, rfl, rfl, rfl, by decide, rfl, rfl, rfl, rfl, rfl⟩
  have hu : (twoColumns .string .int32 siIndexUnique).isUnique = true := by decide
  have htyped : ∀ cs ∈ [[addPair idA (.string (ascii "foo")) (.int32 5)]],
      Typed (twoColumns .string .int32 siIndexUnique) cs := by decide
  obtain ⟨idx₁, hrun₁, htarget, _, _⟩ := (stands_new hnew).run htyped (Or.inl hu)
  obtain rfl : earlier = idx₁ := Except.ok.inj (hearlier.symm.trans hrun₁)
  have hroom : earlier.RoomFor idB [.string [98, 0, 97], .int32 (-7)] := by
    intro id' k' hk' hequal
    obtain ⟨r, hl, hc⟩ := content_eq_some.1 hk'
    rw [hri] at hl
    by_cases hid : id' = idA
    · subst hid
      rw [Finmap.lookup_insert] at hl
      obtain rfl := Option.some.inj hl
      obtain rfl := Option.some.inj (hfirst.symm.trans hc)
      rw [hfuncs] at hequal
      cases hequal
    · rw [Finmap.lookup_insert_of_ne _ hid, Finmap.lookup_empty] at hl
      cases hl
  refine ⟨idx₀, idx, earlier, calls, some 1, hnew, hrun, hearlier, hcalls, hcall, ?_⟩
  exact (aofRecord_restores_iff hnew _ (by decide) (Or.inl hu) hrun (by decide) hcalls hcall hk rfl
    htarget (Or.inl hu) noStrtod (ascii "k") level1).2
      ⟨hcell, by decide, by decide, fun _ => hroom⟩

/-- A NULL is written as the word NULL, which an INT64 column does not take. -/
theorem aofRecord_null_rejected :
    ∃ idx₀ idx calls obj, siNewCompoundIndex (oneColumn .int64 0) = .ok idx₀ ∧
      run applyStep idx₀ [[add idA .null]] = .ok idx ∧
      compoundIndexTraverse idx = .ok calls ∧ (idA, obj) ∈ calls ∧
      idx.content idA = some [.null] ∧
      ¬RecordRestores noStrtod (ascii "k") idx 1
        { kind := .abstractIndex, flags := 0, spec := oneColumn .int64 0, idx := idx₀ }
        level1 idA obj [.null] := by
  refine ⟨_, _, _, some 0, rfl, rfl, rfl, by decide, rfl, ?_⟩
  rintro ⟨argv, target', hargv, hadd, _⟩
  obtain rfl := Except.ok.inj hargv
  have hreply : Reply.error "Invalid value given" = Reply.simpleString "OK" :=
    (Prod.mk.inj (Except.ok.inj hadd)).2
  cases hreply

/-! ## The whole rewrite -/

/-- Commands executed one after the other, with their replies. -/
def replay (strtod : List UInt8 → Strtod) :
    Option RedisIndex → List (List RedisModuleString × Level) →
      Exec (Option RedisIndex × List Reply)
  | opened, [] => .ok (opened, [])
  | opened, (argv, level) :: rest => do
      let r ← indexAddCommand strtod opened argv level
      let s ← replay strtod r.1 rest
      .ok (s.1, r.2 :: s.2)

/-- The records of nodes of one id each, executed where their ids are not there yet: all are
accepted, and restore the tuples of their ids. -/
theorem replay_records {idx : CompoundIndex} {bs : List (Bucket KeyRef SIId)} (h : IndexInv idx bs)
    (hexact : ∀ t ∈ idx.spec.types, t ∈ exactTypes) (hequal : idx.NoEqualTuples)
    (hrestorable : ∀ id k, idx.content id = some k → k ≠ [] ∧ ∀ v ∈ k, Restorable v)
    (strtod : List UInt8 → Strtod) (key : RedisModuleString) :
    ∀ ds : List (Bucket KeyRef SIId), (∀ d ∈ ds, d ∈ bs ∧ ∃ id, d.vals = [id]) →
      (Bucket.allVals ds).Nodup →
      ∃ records, aofRecords key idx idx.spec.numProps (visits ds) = .ok records ∧
        ∀ (target : RedisIndex) (cmds : List (List RedisModuleString × Level)),
          target.spec = idx.spec → Inv idx.spec target.idx →
          (∀ x c, target.idx.content x = some c → idx.content x = some c) →
          (∀ x ∈ Bucket.allVals ds, target.idx.content x = none) → cmds.map Prod.fst = records →
          ∃ target', replay strtod (some target) cmds =
              .ok (some target', cmds.map fun _ => .simpleString "OK") ∧
            ∀ x, target'.idx.content x =
              if x ∈ Bucket.allVals ds then idx.content x else target.idx.content x
  | [], _, _ => by
      refine ⟨[], rfl, fun target cmds _ _ _ _ hcmds => ?_⟩
      obtain rfl := List.map_eq_nil_iff.1 hcmds
      exact ⟨target, rfl, fun x => by simp⟩
  | d :: ds, hds, hnodup => by
      obtain ⟨hd, id, hone⟩ := hds d List.mem_cons_self
      rw [Bucket.allVals_cons, hone, List.singleton_append, List.nodup_cons] at hnodup
      obtain ⟨records, hrecords, hreplay⟩ := replay_records h hexact hequal hrestorable strtod key
        ds (fun e he => hds e (List.mem_cons_of_mem _ he)) hnodup.2
      obtain ⟨k, hcell, hok, hvisit⟩ := aofVisitor_eq h hd key id
      have hk : idx.content id = some k := (content_of_single h hd hone).trans hcell
      have htypes : ∀ p ∈ idx.spec.properties, p.type ∈ exactTypes :=
        fun p hp => hexact p.type (List.mem_map_of_mem hp)
      obtain ⟨hne, hvalues⟩ := hrestorable id k hk
      have hvisits : visits (d :: ds) = (id, some d.key) :: visits ds := by
        simp [visits, visitsOf, hone]
      refine ⟨_, by rw [hvisits, aofRecords, hvisit, ok_bind, hrecords, ok_bind], ?_⟩
      intro target cmds hspec hinv hpart habsent hcmds
      obtain ⟨⟨argv, level⟩, rest, rfl, hargv, hrest⟩ := List.map_eq_cons_iff.1 hcmds
      obtain rfl : argv = _ := hargv
      have hnone : target.idx.content id = none := habsent id (by simp [hone])
      -- The first record finds no entry of its id, and no equal tuple.
      have hfree := keyNotShared_of_content hinv hnone
      have hroom : target.idx.RoomFor id k := by
        intro id' k' hk' hsame
        obtain ⟨htspec, bs', hinv'⟩ := hinv
        have hk₁ := hpart id' k' hk'
        rw [compareEqual_iff hinv'.cmpFuncs (htspec ▸ h.content_ok hk₁) (htspec ▸ hok),
          ← compareEqual_iff h.cmpFuncs (h.content_ok hk₁) hok] at hsame
        obtain rfl := hequal id' id k' k hk₁ hk hsame
        simp [hnone] at hk'
      have hparse : parseArgs strtod idx.spec.properties (k.map siValueToRMString) = some k :=
        (parseArgs_eq_some_iff hok hok rfl htypes).2 ⟨rfl, hvalues⟩
      obtain ⟨target₁, hadd, hspec₁, hinv₁, hcontent⟩ := insert_stores hspec hinv (Or.inr hfree)
        hok (fun _ => hroom) (by simpa using hne) hparse (ascii "IDX.INSERT") key level
      obtain ⟨target', hrun, hcontent'⟩ := hreplay target₁ rest hspec₁ hinv₁
        (fun x c hc => by
          rw [hcontent x] at hc
          split_ifs at hc with hx
          · rw [hx, hk, hc]
          · exact hpart x c hc)
        (fun x hx => by
          have hxid : x ≠ id := fun hxid => hnodup.1 (hxid ▸ hx)
          rw [hcontent x, if_neg hxid]
          exact habsent x (by simp [hx]))
        hrest
      refine ⟨target', by simp [replay, hadd, hrun], fun x => ?_⟩
      rw [hcontent' x, hcontent x]
      by_cases hx : x = id
      · simp [hx, hone, hnodup.1, hk]
      · simp [hx, hone]

/-- A rewrite emits an IDX.CREATE and then the records.  Where no two tuples compare equal, the
tuples have a column and no NULL, and the truth values are 0 or 1, a new index of the same columns
takes all records one after the other, and holds then what the index holds. -/
theorem redisIndexAofRewrite_replays {spec : SISpec} {idx₀ idx : CompoundIndex}
    (hnew : siNewCompoundIndex spec = .ok idx₀) (css : List (List (SIChange × Level)))
    (htyped : ∀ cs ∈ css, Typed spec cs)
    (hkeys : spec.isUnique = true ∨ Every applyStep KeysNotShared idx₀ css)
    (hrun : run applyStep idx₀ css = .ok idx) (hexact : ∀ t ∈ spec.types, t ∈ exactTypes)
    (hequal : idx.NoEqualTuples)
    (hrestorable : ∀ id k, idx.content id = some k → k ≠ [] ∧ ∀ v ∈ k, Restorable v)
    {r : RedisIndex} (hspec : r.spec = spec) (hidx : r.idx = idx) {schema : List RedisModuleString}
    (hschema : aofSchema r.kind r.spec = .ok schema) (strtod : List UInt8 → Strtod)
    (key : RedisModuleString) :
    ∃ records, redisIndexAofRewrite key r = .ok (createCommand key schema :: records) ∧
      ∀ cmds, cmds.map Prod.fst = records → ∃ target',
        replay strtod (some { r with idx := idx₀ }) cmds =
            .ok (some target', cmds.map fun _ => .simpleString "OK") ∧
          ∀ id, target'.idx.content id = idx.content id := by
  obtain ⟨idx₁, hrun₁, ⟨rfl, bs, h⟩, _, _⟩ := (stands_new hnew).run htyped hkeys
  obtain rfl : idx = idx₁ := Except.ok.inj (hrun.symm.trans hrun₁)
  obtain ⟨hinv₀, _, _⟩ := stands_new hnew
  have hempty := (indexInv_new hnew).2.2
  have hsingle := h.single_iff.1 hequal
  obtain ⟨records, hrecords, hreplay⟩ := replay_records h hexact hequal hrestorable strtod key bs
    (fun d hd => ⟨hd, hsingle d hd⟩) h.nodup
  refine ⟨records, ?_, fun cmds hcmds => ?_⟩
  · rw [redisIndexAofRewrite, hschema, ok_bind, hidx,
      compoundIndexTraverse_spec h.rep h.nonempty, ok_bind, hspec, hrecords]
    rfl
  · obtain ⟨target', hrun', hcontent⟩ := hreplay { r with idx := idx₀ } cmds hspec hinv₀
      (fun x c hc => by simp [hempty x] at hc) (fun x _ => hempty x) hcmds
    refine ⟨target', hrun', fun id => ?_⟩
    rw [hcontent id]
    split_ifs with hid
    · rfl
    · have hnone : idx.content id = none := by
        cases hk : idx.content id with
        | none => rfl
        | some k => exact absurd ((h.mem id).2 (h.exists_content.2 ⟨k, hk⟩)) hid
      rw [hnone]
      exact hempty id

end Secondary
