import Secondary.Cast
import Secondary.RdbSpec
import Secondary.SchemaIndex
import Secondary.SelectCounted
import Secondary.Service

/-!
# ServiceSpec — the commands of the module against the service

The keys of Redis and those of the service go together: an index stands for the table of the
service's index.  Each command keeps this, and replies what the service says, whichever level is
drawn and whatever the memory held before; saving and loading an index keeps it too.
-/

namespace Secondary

open Lib

/-! ## Comparators -/

theorem cmpFuncsOf_comparators {types : List SIType} (h : ∀ t ∈ types, ColumnType t) :
    CmpFuncsOf types (comparators types) := by
  induction types with
  | nil => exact .nil
  | cons t types ih =>
      obtain ⟨f, hf⟩ := cmpFuncOf_columnType (h t (by simp))
      refine .cons ?_ (ih fun u hu => h u (List.mem_cons_of_mem _ hu))
      simp only [hf]

/-- There is one comparator for each column. -/
theorem CmpFuncsOf.eq_comparators {types : List SIType} {fs : List SIKeyCmpFunc}
    (h : CmpFuncsOf types fs) : fs = comparators types := by
  induction h with
  | nil => rfl
  | cons hf _ ih =>
      rw [comparators, List.map_cons, hf, ih]
      rfl

/-! ## Places -/

section Places

variable {idx idx' : CompoundIndex} {m m' : TupleMap} {bs bs' : List (Bucket KeyRef SIId)}
  {id : SIId}

/-- An id has its tuple in the same place in the index and in the map. -/
theorem Mirrors.place_iff (h : Mirrors idx m) (hinv : IndexInv idx bs) {x : List Place} :
    (∃ k, idx.content id = some k ∧ places k = x) ↔
      ∃ k, m.lookup id = some k ∧ places k = x := by
  have hrel := h.content id
  cases hk : idx.content id with
  | none =>
      rw [hk] at hrel
      cases hl : m.lookup id with
      | none => simp
      | some l => simp [hl] at hrel
  | some k =>
      rw [hk] at hrel
      cases hl : m.lookup id with
      | none => simp [hl] at hrel
      | some l =>
          rw [hl, Option.rel_some_some] at hrel
          have heq : places k = places l :=
            (compareEqual_iff hinv.cmpFuncs (hinv.content_ok hk) (h.typed id l hl)).1 hrel
          simp [heq]

/-- An index that holds tuples of the same places stands for the same map. -/
theorem Mirrors.of_places (h : Mirrors idx m) (hinv : IndexInv idx bs) (hinv' : IndexInv idx' bs')
    (hspec : idx'.spec = idx.spec)
    (hplaces : ∀ id x, (∃ k, idx'.content id = some k ∧ places k = x) ↔
      ∃ k, idx.content id = some k ∧ places k = x) :
    Mirrors idx' m where
  typed := by
    rw [hspec]
    exact h.typed
  content := by
    intro id
    have hiff : ∀ x, (∃ k, idx'.content id = some k ∧ places k = x) ↔
        ∃ k, m.lookup id = some k ∧ places k = x :=
      fun x => (hplaces id x).trans (h.place_iff hinv)
    cases hk : idx'.content id with
    | none =>
        cases hl : m.lookup id with
        | none => exact .none
        | some l =>
            obtain ⟨k, hk', _⟩ := (hiff (places l)).2 ⟨l, hl, rfl⟩
            rw [hk] at hk'
            cases hk'
    | some k =>
        obtain ⟨l, hl, heq⟩ := (hiff (places k)).1 ⟨k, hk, rfl⟩
        rw [hl]
        refine .some ?_
        exact (compareEqual_iff hinv'.cmpFuncs (hinv'.content_ok hk)
          (hspec ▸ h.typed id l hl)).2 heq.symm

/-- Where each node has one id, no key is shared. -/
theorem IndexInv.keyNotShared (h : IndexInv idx bs) (hsingle : ∀ b ∈ bs, ∃ id, b.vals = [id])
    (id : SIId) : KeyNotShared idx id := by
  intro r hl x n hn hobj
  have hx : idx.sl.nodes.objAt? x = some r := by simp [Nodes.objAt?, hn, hobj]
  obtain ⟨b, hb, rfl⟩ := h.rep.only x r hx
  have hkey : b.key = r := Option.some.inj ((h.rep.obj b hb).symm.trans hx)
  have hvals : n.vals = b.vals := by
    have hread := h.rep.vals b hb
    rw [Nodes.valsAt?, hn] at hread
    exact Option.some.inj hread
  -- The key is that of the one id in the node, and no other id has this key.
  obtain ⟨id', hid'⟩ := hsingle b hb
  obtain ⟨owner, hmem, howner⟩ := h.owner b hb
  rw [hid', List.mem_singleton] at hmem
  subst hmem
  rw [hkey] at howner
  obtain rfl := h.inj id owner r hl howner
  rw [hvals, hid']

end Places

/-! ## What stands for what -/

/-- An index stands for an index of the service. -/
structure StandsFor (r : RedisIndex) (a : ServedIndex) : Prop where
  kind : r.kind = a.kind
  spec : r.spec = a.spec
  stands : Stands a.spec (comparators a.spec.types) r.idx a.table.map

/-- What is at a key stands for what the service has there. -/
inductive StandsAt : Option RedisObject → Option Served → Prop
  | none : StandsAt none none
  | plain (value : PlainObject) : StandsAt (some value.object) (some .plain)
  | index {r : RedisIndex} {a : ServedIndex} (stands : StandsFor r a) :
      StandsAt (some (.index r)) (some (.index a))

/-- The keys stand for the service. -/
def Serves (db : Keyspace) (s : Service) : Prop :=
  ∀ key, StandsAt (db key) (s key)

section Serves

variable {db : Keyspace} {s : Service} {key : RedisModuleString} {r : RedisIndex} {a : ServedIndex}

theorem Serves.update (h : Serves db s) {v : Option RedisObject} {w : Option Served}
    (hvw : StandsAt v w) : Serves (Function.update db key v) (Function.update s key w) := by
  intro key'
  by_cases hkey : key' = key
  · subst hkey
    rwa [Function.update_self, Function.update_self]
  · rw [Function.update_of_ne hkey, Function.update_of_ne hkey]
    exact h key'

theorem Serves.setIndex (h : Serves db s) (key : RedisModuleString) (hr : StandsFor r a) :
    Serves (db.setIndex key r) (s.set key a) :=
  h.update (.index hr)

/-- Another index that stands for the same index of the service. -/
theorem Serves.replace (h : Serves db s) (hkey : s key = some (.index a)) (hr : StandsFor r a) :
    Serves (db.setIndex key r) s := by
  have hset := h.setIndex key hr
  rwa [Service.set, ← hkey, Function.update_eq_self] at hset

/-- Keys with an index have one on both sides. -/
theorem Serves.index_cases (h : Serves db s) (key : RedisModuleString) :
    (∃ r a, db key = some (.index r) ∧ s key = some (.index a) ∧ StandsFor r a) ∨
      (s.indexAt key = none ∧ db.indexAt key = none ∧ ∀ r, db key ≠ some (.index r)) := by
  have hkey := h key
  rw [Service.indexAt, Keyspace.indexAt]
  generalize db key = v at hkey ⊢
  generalize s key = w at hkey ⊢
  cases hkey with
  | none => exact Or.inr ⟨rfl, rfl, by simp⟩
  | plain value => cases value <;> exact Or.inr ⟨rfl, rfl, by simp [PlainObject.object]⟩
  | index hstands => exact Or.inl ⟨_, _, rfl, rfl, hstands⟩

theorem Serves.isSome (h : Serves db s) (key : RedisModuleString) :
    (db key).isSome = (s key).isSome := by
  have hkey := h key
  generalize db key = v at hkey ⊢
  generalize s key = w at hkey ⊢
  cases hkey <;> rfl

theorem Service.indexAt_eq (hkey : s key = some (.index a)) : s.indexAt key = some a := by
  rw [Service.indexAt, hkey]

theorem Keyspace.indexAt_eq (hkey : db key = some (.index r)) : db.indexAt key = some r := by
  rw [Keyspace.indexAt, hkey]

end Serves

section StandsFor

variable {r : RedisIndex} {a : ServedIndex}

theorem ServedIndex.cmpFuncs (a : ServedIndex) :
    CmpFuncsOf a.spec.types (comparators a.spec.types) :=
  cmpFuncsOf_comparators fun t ht => by
    obtain ⟨p, hp, rfl⟩ := List.mem_map.1 ht
    exact a.schema.property.columns p hp

theorem StandsFor.noEqualTuples (h : StandsFor r a) : r.idx.NoEqualTuples := by
  obtain ⟨⟨_, bs, hinv⟩, _, hm⟩ := h.stands
  intro id id' k k' hk hk' hequal
  have hplaces := (compareEqual_iff hinv.cmpFuncs (hinv.content_ok hk) (hinv.content_ok hk')).1
    hequal
  obtain ⟨l, hl, hlk⟩ := (hm.place_iff hinv).1 ⟨k, hk, rfl⟩
  obtain ⟨l', hl', hlk'⟩ := (hm.place_iff hinv).1 ⟨k', hk', rfl⟩
  exact a.table.apart hl hl' (by rw [hlk, hplaces, hlk'])

/-- One change of the index is one of the map, as no two tuples are equal. -/
theorem StandsFor.change (h : StandsFor r a) (ch : SIChange) (htyped : ch.Typed a.spec.types)
    (level : Level) :
    ∃ idx' code, compoundIndexApplyChange r.idx ch level = .ok (idx', code) ∧
      Changed r.idx ch idx' code ∧
      Stands a.spec (comparators a.spec.types) idx'
        (changeMap a.spec (comparators a.spec.types) a.table.map ch).1 ∧
      ((changeMap a.spec (comparators a.spec.types) a.table.map ch).2 = true ↔
        code = siIndexOk ∨ code = siIndexNotfound) := by
  refine h.stands.change htyped (Or.inr fun _ => ?_) level
  obtain ⟨⟨_, bs, hinv⟩, _, _⟩ := h.stands
  exact hinv.keyNotShared (hinv.single_iff.1 h.noEqualTuples) ch.id

end StandsFor

/-! ## IDX.CREATE -/

theorem orFault_argument {argv : List RedisModuleString} {i : Nat} (h : i < argv.length) :
    orFault argv[i]? Fault.bounds = .ok ((argv[i]?).getD []) := by
  rw [List.getElem?_eq_getElem h, orFault_some, Option.getD_some]

theorem orFault_key {argv : List RedisModuleString} (h : 1 < argv.length) :
    orFault argv[1]? Fault.bounds = .ok (keyOf argv) :=
  orFault_argument h

/-- Two words, or one, are there for each column. -/
theorem parseColumns_returns {named : Bool} :
    ∀ {n : Nat} {args : List RedisModuleString}, n * wordsPerColumn named ≤ args.length →
      ∃ ps, parseColumns named n args = .ok ps := by
  intro n
  induction n with
  | zero =>
      intro args _
      exact ⟨_, rfl⟩
  | succ n ih =>
      intro args hlen
      rw [Nat.succ_mul] at hlen
      obtain ⟨name, str, rest, hname, hrest⟩ : ∃ name str rest,
          columnName named args = .ok (name, str :: rest) ∧
            n * wordsPerColumn named ≤ rest.length := by
        cases named with
        | true =>
            obtain _ | ⟨a, _ | ⟨str, rest⟩⟩ := args
            · simp [wordsPerColumn] at hlen
            · simp [wordsPerColumn] at hlen
            · refine ⟨some (cString a), str, rest, rfl, ?_⟩
              simp only [wordsPerColumn, if_true, List.length_cons] at hlen ⊢
              omega
        | false =>
            obtain _ | ⟨str, rest⟩ := args
            · simp [wordsPerColumn] at hlen
            · refine ⟨none, str, rest, rfl, ?_⟩
              simp only [wordsPerColumn, Bool.false_eq_true, if_false, List.length_cons] at hlen ⊢
              omega
      cases htype : findType str siTypes typeEnums with
      | none => exact ⟨none, by simp [parseColumns, hname, htype]⟩
      | some t =>
          obtain ⟨ps, hps⟩ := ih hrest
          refine ⟨ps.map fun ps => { type := t, flags := 0, name := name } :: ps, ?_⟩
          simp [parseColumns, hname, htype, hps]

/-- `SI_ParseSpec` reads no word that is not there. -/
theorem siParseSpec_returns (argv : List RedisModuleString) :
    siParseSpec argv = .ok (schemaOf argv) := by
  obtain ⟨r, hr⟩ : ∃ r, siParseSpec argv = .ok r := by
    simp only [siParseSpec]
    split_ifs with hpos hodd
    · exact ⟨_, rfl⟩
    · exact ⟨_, rfl⟩
    · generalize schemaPosition argv (rmUtilArgExists (ascii "UNIQUE") argv 2) = pos at hpos hodd
      generalize decide (parseKind argv = .hashIndex) = named at hodd
      have hwords : specNumProps named (argv.length - (pos + 1)) * wordsPerColumn named ≤
          (argv.drop (pos + 1)).length := by
        rw [List.length_drop]
        cases named with
        | true =>
            simp only [specNumProps, wordsPerColumn, if_true]
            omega
        | false => simp [specNumProps, wordsPerColumn]
      obtain ⟨ps, hps⟩ := parseColumns_returns hwords
      rw [hps]
      exact ⟨_, rfl⟩
  rw [schemaOf, hr]

theorem parseColumns_named {named : Bool} :
    ∀ {n : Nat} {args : List RedisModuleString} {ps : List SIIndexProperty},
      parseColumns named n args = .ok (some ps) → ∀ p ∈ ps, p.name.isSome = named
  | 0, _, ps, h => by
      obtain rfl : [] = ps := by simpa [parseColumns] using h
      simp
  | n + 1, args, ps, h => by
      obtain ⟨r, hname, h⟩ := bind_eq_ok.1 h
      obtain ⟨str, _, h⟩ := bind_eq_ok.1 h
      cases htype : findType str siTypes typeEnums with
      | none => simp [htype] at h
      | some t =>
          simp only [htype] at h
          obtain ⟨rest, hrest, h⟩ := bind_eq_ok.1 h
          cases rest with
          | none => simp at h
          | some qs =>
              obtain rfl : _ = ps := by simpa using h
              refine List.forall_mem_cons.2 ⟨?_, parseColumns_named hrest⟩
              cases named with
              | true =>
                  obtain ⟨propName, _, hname⟩ := bind_eq_ok.1 hname
                  obtain rfl := Except.ok.inj hname
                  rfl
              | false =>
                  obtain rfl := Except.ok.inj hname
                  rfl

/-- A schema of at most 255 columns that is accepted can be served. -/
theorem schemaOk_of_schemaOf {argv : List RedisModuleString} {kind : SIIndexKind} {spec : SISpec}
    (h : schemaOf argv = some (kind, spec)) (hfew : spec.numProps ≤ 255) : SchemaOk spec := by
  have hparse : siParseSpec argv = .ok (some (kind, spec)) := by rw [siParseSpec_returns, h]
  obtain ⟨_, _, pos, _, hcols⟩ := siParseSpec_ok hparse
  exact ⟨siParseSpec_types hparse, hfew, parseColumns_named hcols⟩

/-- An index of a schema that can be served is made. -/
theorem siNewCompoundIndex_served (schema : ServedSchema) :
    ∃ idx, siNewCompoundIndex schema.val = .ok idx ∧
      idx.cmpFuncs = comparators schema.val.types := by
  have hlen : schema.val.properties.length ≤ 255 := schema.property.few
  obtain ⟨fs, hfill⟩ := fillCmpFuncs_ends schema.property.columns hlen 257 0 []
    (Nat.zero_le _) (by rw [UInt8.toNat_zero]; omega)
  obtain ⟨idx, hnew⟩ : ∃ idx, siNewCompoundIndex schema.val = .ok idx :=
    ⟨_, bind_eq_ok.2 ⟨fs, hfill, rfl⟩⟩
  obtain ⟨hinv, hspec, _⟩ := indexInv_new hnew
  exact ⟨idx, hnew, by rw [hinv.cmpFuncs.eq_comparators, hspec]⟩

/-- A new index stands for no tuples. -/
theorem newRedisIndex_stands (kind : SIIndexKind) (schema : ServedSchema) :
    ∃ r, newRedisIndex kind 0 schema.val = .ok r ∧ StandsFor r (.new kind schema) := by
  obtain ⟨idx, hnew, hfs⟩ := siNewCompoundIndex_served schema
  refine ⟨{ kind := kind, flags := 0, spec := schema.val, idx := idx }, ?_, rfl, rfl, ?_⟩
  · rw [newRedisIndex, hnew, ok_bind]
  · have hstands := stands_new hnew
    rwa [hfs] at hstands

section Create

variable {db : Keyspace} {s : Service} {argv : List RedisModuleString}

theorem createIndexCommand_spec (h : Serves db s)
    (hfew : ∀ kind spec, schemaOf argv = some (kind, spec) → spec.numProps ≤ 255) :
    ∃ db', createIndexCommand db argv = .ok (db', (s.create argv).2) ∧
      Serves db' (s.create argv).1 := by
  rw [createIndexCommand, Service.create]
  by_cases harity : argv.length < 4
  · rw [if_pos harity, if_pos harity]
    exact ⟨db, rfl, h⟩
  rw [if_neg harity, if_neg harity, siParseSpec_returns, ok_bind]
  cases hschema : schemaOf argv with
  | none => exact ⟨db, rfl, h⟩
  | some p =>
      obtain ⟨kind, spec⟩ := p
      have hok := schemaOk_of_schemaOf hschema (hfew kind spec hschema)
      have hsome := h.isSome (keyOf argv)
      simp only [orFault_key (by omega : 1 < argv.length), ok_bind, ← hsome, dif_pos hok]
      cases hvalue : db (keyOf argv) with
      | some v => exact ⟨db, rfl, h⟩
      | none =>
          obtain ⟨r, hnew, hstands⟩ := newRedisIndex_stands kind ⟨spec, hok⟩
          refine ⟨db.setIndex (keyOf argv) r, ?_, h.setIndex _ hstands⟩
          simp only [hnew, ok_bind]
          rfl

end Create

/-! ## IDX.INSERT and IDX.DEL -/

/-- What is parsed has the types of its columns; `strtod` alone can make a NaN. -/
theorem keyOk_of_parseArgs {strtod : List UInt8 → Strtod} {ps : List SIIndexProperty} :
    ∀ {args : List RedisModuleString} {vals : List SIValue},
      parseArgs strtod ps args = some vals → (∀ v ∈ vals, v.NotNaN) →
      vals.length = ps.length → KeyOk (ps.map SIIndexProperty.type) vals := by
  induction ps with
  | nil =>
      intro args vals _ _ hlen
      obtain rfl := List.length_eq_zero_iff.1 hlen
      exact .nil
  | cons p ps ih =>
      intro args vals hparse hnan hlen
      cases args with
      | nil =>
          obtain rfl : [] = vals := by simpa [parseArgs] using hparse
          cases hlen
      | cons a args =>
          simp only [parseArgs, Option.bind_eq_bind, Option.bind_eq_some_iff,
            Option.some.injEq] at hparse
          obtain ⟨v, hv, vs, hvs, rfl⟩ := hparse
          refine .cons (Or.inr ⟨siParseValue_type hv, hnan v (by simp)⟩) ?_
          exact ih hvs (fun w hw => hnan w (List.mem_cons_of_mem _ hw)) (by simpa using hlen)

section Changes

variable {db : Keyspace} {s : Service} {argv : List RedisModuleString} {r : RedisIndex}
  {a : ServedIndex} {id : SIId} {vals : List SIValue}

theorem ServedIndex.taken_iff (a : ServedIndex) (hvals : KeyOk a.spec.types vals) :
    Taken (comparators a.spec.types) a.table.map id vals ↔ a.table.Taken id vals := by
  refine exists_congr fun id' => exists_congr fun k => and_congr_right fun _ => ?_
  refine and_congr_right fun hk => ?_
  exact compareEqual_iff a.cmpFuncs (a.typed hk) hvals

/-- The last change of a changeset is the one whose code is returned, unless it found nothing. -/
theorem compoundIndexApply_one {idx idx' : CompoundIndex} {ch : SIChange} {level : Level}
    {code : Int} (h : compoundIndexApplyChange idx ch level = .ok (idx', code)) :
    compoundIndexApply idx [(ch, level)] =
      .ok (idx', if code = siIndexNotfound then siIndexOk else code) := by
  simp only [compoundIndexApply, h, ok_bind]
  by_cases hok : code = siIndexOk
  · subst hok
    rfl
  · by_cases hmissing : code = siIndexNotfound
    · subst hmissing
      rfl
    · rw [if_pos ⟨hok, hmissing⟩, if_neg hmissing]

/-- A tuple is stored in the index where the service stores it. -/
theorem StandsFor.insert (h : StandsFor r a) (id : SIId)
    (hvals : vals.length = a.spec.types.length → KeyOk a.spec.types vals)
    (hshared : a.spec.isUnique = false → ¬a.table.Taken id vals) (level : Level) :
    ∃ idx' code, compoundIndexApply r.idx [({ type := .chAdd, id := id, v := vals }, level)] =
        .ok (idx', code) ∧
      ((∃ hok : KeyOk a.spec.types vals ∧ ¬a.table.Taken id vals, code = siIndexOk ∧
          StandsFor { r with idx := idx' } (a.insert id vals hok.1 hok.2)) ∨
        (¬(KeyOk a.spec.types vals ∧ ¬a.table.Taken id vals) ∧ code ≠ siIndexOk ∧
          StandsFor { r with idx := idx' } a)) := by
  obtain ⟨idx', code, hrun, hchanged, hstands, hcode⟩ :=
    h.change { type := .chAdd, id := id, v := vals } (fun _ => hvals) level
  refine ⟨idx', _, compoundIndexApply_one hrun, ?_⟩
  -- An ADD finds no entry missing.
  have hfound : code ≠ siIndexNotfound := by
    cases hchanged with
    | rejected _ => decide
    | missing type _ => cases type
    | removed type _ => cases type
    | added _ _ outcome => cases outcome <;> decide
  rw [if_neg hfound]
  simp only [hfound, or_false] at hcode
  by_cases hok : KeyOk a.spec.types vals ∧ ¬a.table.Taken id vals
  · have hfree : ¬Taken (comparators a.spec.types) a.table.map id vals :=
      fun ht => hok.2 ((a.taken_iff hok.1).1 ht)
    have haccepted : changeMap a.spec (comparators a.spec.types) a.table.map
        { type := .chAdd, id := id, v := vals } = (a.table.map.insert id vals, true) := by
      simp [changeMap, hok.1.length_eq, hfree]
    rw [haccepted] at hstands hcode
    exact Or.inl ⟨hok, hcode.1 rfl, ⟨h.kind, h.spec, hstands⟩⟩
  · have hrejected : changeMap a.spec (comparators a.spec.types) a.table.map
        { type := .chAdd, id := id, v := vals } = (a.table.map, false) := by
      simp only [changeMap]
      refine if_pos ?_
      by_cases hlen : vals.length = a.spec.types.length
      · -- It is taken, so the index is UNIQUE.
        refine Or.inr ⟨?_, ?_⟩
        · by_contra hu
          exact hok ⟨hvals hlen, hshared (by simpa using hu)⟩
        · by_contra hfree
          exact hok ⟨hvals hlen, fun ht => hfree ((a.taken_iff (hvals hlen)).2 ht)⟩
      · exact Or.inl hlen
    rw [hrejected] at hstands hcode
    exact Or.inr ⟨hok, fun hcode' => absurd (hcode.2 hcode') (by simp),
      ⟨h.kind, h.spec, hstands⟩⟩

theorem indexInsertCommand_spec {strtod : List UInt8 → Strtod} (h : Serves db s)
    (hadm : ∀ a vals, s.indexAt (keyOf argv) = some a →
      parseArgs strtod a.spec.properties (argv.drop 3) = some vals →
      (∀ v ∈ vals, v.NotNaN) ∧
        (a.spec.isUnique = false → ¬a.table.Taken (cString ((argv[2]?).getD [])) vals))
    (level : Level) :
    ∃ db', indexInsertCommand strtod level db argv = .ok (db', (s.insert strtod argv).2) ∧
      Serves db' (s.insert strtod argv).1 := by
  rw [indexInsertCommand, Service.insert]
  by_cases harity : argv.length < 4
  · rw [if_pos harity, if_pos harity]
    exact ⟨db, rfl, h⟩
  rw [if_neg harity, if_neg harity, orFault_key (by omega), ok_bind]
  simp only [indexAddCommand, if_neg harity, orFault_argument (by omega : 2 < argv.length), ok_bind]
  rcases h.index_cases (keyOf argv) with ⟨r, a, hr, ha, hstands⟩ | ⟨hnone, hnone', _⟩
  · have hindex := Service.indexAt_eq ha
    have hspec : r.spec.properties = a.spec.properties := by rw [hstands.spec]
    simp only [Keyspace.indexAt_eq hr, hindex, hspec]
    cases hparse : parseArgs strtod a.spec.properties (argv.drop 3) with
    | none =>
        refine ⟨_, rfl, h.replace ha hstands⟩
    | some vals =>
        obtain ⟨hnan, hshared⟩ := hadm a vals hindex hparse
        have hvals : vals.length = a.spec.types.length → KeyOk a.spec.types vals :=
          fun hlen => keyOk_of_parseArgs hparse hnan (by simpa [SISpec.types] using hlen)
        obtain ⟨idx', code, hrun, hcases⟩ :=
          hstands.insert (cString ((argv[2]?).getD [])) hvals hshared level
        simp only [hrun, ok_bind]
        rcases hcases with ⟨hok, rfl, hstands'⟩ | ⟨hbad, hcode, hstands'⟩
        · rw [dif_pos hok]
          exact ⟨_, rfl, h.setIndex _ hstands'⟩
        · rw [dif_neg hbad]
          simp only [ne_eq, hcode, not_false_eq_true, if_true, ok_bind]
          exact ⟨_, rfl, h.replace ha hstands'⟩
  · simp only [hnone, hnone', ok_bind]
    exact ⟨db, rfl, h⟩

/-- The entries of all ids are dropped; an id that has none is passed over. -/
theorem StandsFor.erases (level : Level) (ids : List RedisModuleString) :
    ∀ {r : RedisIndex} {a : ServedIndex}, StandsFor r a →
      ∃ idx', compoundIndexApply r.idx (ids.map (siNewDelChange level)) =
          .ok (idx', siIndexOk) ∧
        StandsFor { r with idx := idx' }
          (ids.foldl (fun a id => a.erase (cString id)) a) := by
  induction ids with
  | nil =>
      intro r a h
      exact ⟨r.idx, rfl, h⟩
  | cons id ids ih =>
      intro r a h
      obtain ⟨idx₁, code, hrun, _, hstands, hcode⟩ :=
        h.change (siNewDelChange level id).1 (by rintro ⟨⟩) level
      have hgo : code = siIndexOk ∨ code = siIndexNotfound := hcode.1 rfl
      have herased : StandsFor { r with idx := idx₁ } (a.erase (cString id)) :=
        ⟨h.kind, h.spec, hstands⟩
      obtain ⟨idx', hrest, hstands'⟩ := ih herased
      refine ⟨idx', ?_, hstands'⟩
      have hcont : ¬(code ≠ siIndexOk ∧ code ≠ siIndexNotfound) := by tauto
      have hrun' : compoundIndexApplyChange r.idx (siNewDelChange level id).1
          (siNewDelChange level id).2 = .ok (idx₁, code) := hrun
      rw [List.map_cons, compoundIndexApply, hrun', ok_bind, if_neg hcont]
      exact hrest

theorem indexDelCommand_spec (h : Serves db s) (argv : List RedisModuleString) (level : Level) :
    ∃ db', indexDelCommand level db argv = .ok (db', (s.del argv).2) ∧
      Serves db' (s.del argv).1 := by
  rw [indexDelCommand, Service.del]
  by_cases harity : argv.length < 3
  · rw [if_pos harity, if_pos harity]
    exact ⟨db, rfl, h⟩
  rw [if_neg harity, if_neg harity, orFault_key (by omega), ok_bind]
  rcases h.index_cases (keyOf argv) with ⟨r, a, hr, ha, hstands⟩ | ⟨hnone, _, hother⟩
  · obtain ⟨idx', hrun, hstands'⟩ := hstands.erases level (argv.drop 2)
    simp only [hr, Service.indexAt_eq ha, hrun, ok_bind, ne_eq, not_true_eq_false, if_false]
    exact ⟨_, rfl, h.setIndex _ hstands'⟩
  · rw [hnone]
    refine ⟨db, ?_, h⟩
    cases hvalue : db (keyOf argv) with
    | none => rfl
    | some v =>
        cases v with
        | index r => exact absurd hvalue (hother r)
        | _ => rfl

/-! ## IDX.CARD -/

theorem indexCardinalityCommand_spec (h : Serves db s) (argv : List RedisModuleString) :
    ∃ db', indexCardinalityCommand db argv = .ok (db', (s.card argv).2) ∧
      Serves db' (s.card argv).1 := by
  rw [indexCardinalityCommand, Service.card]
  by_cases harity : argv.length ≠ 2
  · rw [if_pos harity, if_pos harity]
    exact ⟨db, rfl, h⟩
  rw [if_neg harity, if_neg harity, orFault_key (by omega), ok_bind]
  have hkey := h (keyOf argv)
  generalize db (keyOf argv) = v at hkey ⊢
  generalize s (keyOf argv) = w at hkey ⊢
  cases hkey with
  | none => exact ⟨db, rfl, h⟩
  | plain value => cases value <;> exact ⟨db, rfl, h⟩
  | @index r a hstands =>
      have hlen : compoundIndexLen r.idx = a.card := hstands.stands.represents.length
      simp only [hlen]
      exact ⟨db, rfl, h⟩

end Changes

/-! ## IDX.SELECT -/

/-- Entries that are listed bucket by bucket, and filtered by something that is the same in a
bucket. -/
theorem map_fst_filter_flatMap {ι κ ω : Type} (g : Bucket κ ι → ω) (p : ω → Bool)
    (bs : List (Bucket κ ι)) :
    ((bs.flatMap fun b => b.vals.map fun id => (id, g b)).filter fun e => p e.2).map Prod.fst =
      (bs.filter fun b => p (g b)).flatMap Bucket.vals := by
  induction bs with
  | nil => rfl
  | cons b bs ih =>
      rw [List.flatMap_cons, List.filter_append, List.map_append, ih, List.filter_cons]
      have hbucket : ∀ vals : List ι,
          ((vals.map fun id => (id, g b)).filter fun e => p e.2).map Prod.fst =
            if p (g b) then vals else [] := by
        intro vals
        cases hp : p (g b) <;> simp [List.filter_map, Function.comp_def, hp]
      rw [hbucket b.vals]
      cases p (g b) <;> rfl

section Select

variable {db : Keyspace} {s : Service} {argv : List RedisModuleString} {r : RedisIndex}
  {a : ServedIndex} {plan : SIQueryPlan} {bs : List (Bucket KeyRef SIId)}

open Classical in
/-- Whether the plan selects tuples of these places in the range `rg`. -/
noncomputable def selectsPlaces (plan : SIQueryPlan) (rg : SIPlanRange) (xs : List Place) : Bool :=
  decide (¬rg.interval.Below (xs.take rg.min.length) ∧
    ¬rg.interval.Above (xs.take rg.min.length) ∧ FilterSays plan xs)

theorem selectsPlaces_iff {types : List SIType} {fs : List SIKeyCmpFunc} {k : SIMultiKey}
    {rg : SIPlanRange} (hfs : CmpFuncsOf types fs) (hk : KeyOk types k)
    (hplan : PlanOk types plan) (hrg : rg ∈ plan.ranges) :
    selectsPlaces plan rg (places k) = true ↔
      NotBelow fs rg k ∧ NotAbove fs rg k ∧ PassesPlan fs plan k := by
  rw [notBelow_iff hfs hk (hplan.ranges rg hrg), notAbove_iff hfs hk (hplan.ranges rg hrg),
    passesPlan_iff hfs hk hplan]
  exact @decide_eq_true_iff _ (_)

/-- The nodes, one after the other, are the listing of the table. -/
theorem StandsFor.listing (h : StandsFor r a) (hinv : IndexInv r.idx bs) :
    a.table.listing.map (fun e => (e.1, places e.2)) =
      bs.flatMap fun b => b.vals.map fun id => (id, r.idx.places b.key) := by
  have hm := h.stands.2.2
  apply Placed.listing_unique
  · refine List.pairwise_flatMap.2 ⟨?_, ?_⟩
    · intro b hb
      obtain ⟨id, hid⟩ := hinv.single_iff.1 h.noEqualTuples b hb
      rw [hid]
      exact List.pairwise_singleton _ _
    · refine (places_lt hinv).imp fun hlt => ?_
      rintro e he e' he'
      obtain ⟨id, _, rfl⟩ := List.mem_map.1 he
      obtain ⟨id', _, rfl⟩ := List.mem_map.1 he'
      exact hlt
  · intro id x
    rw [← hm.place_iff hinv]
    simp only [List.mem_flatMap, List.mem_map, Prod.mk.injEq]
    constructor
    · rintro ⟨b, hb, id', hid, rfl, rfl⟩
      obtain ⟨k, hk⟩ := hinv.exists_content.1
        ((hinv.mem id').1 (Bucket.mem_allVals.2 ⟨b, hb, hid⟩))
      exact ⟨k, hk, (places_key hinv hb hid hk).symm⟩
    · rintro ⟨k, hk, rfl⟩
      obtain ⟨b, hb, hid⟩ := hinv.exists_bucket hk
      exact ⟨b, hb, id, hid, rfl, places_key hinv hb hid hk⟩

/-- The ids that a scan of the index returns are those that the service selects. -/
theorem StandsFor.selected (h : StandsFor r a) (hinv : IndexInv r.idx bs)
    (hplan : PlanOk a.spec.types plan) :
    (plan.ranges.flatMap fun rg =>
      (bs.filter (selectsNode r.idx plan rg)).flatMap Bucket.vals) = a.selected plan := by
  have hspec : r.idx.spec = a.spec := h.stands.1.1
  refine List.flatMap_congr fun rg hrg => ?_
  have hnodes : bs.filter (selectsNode r.idx plan rg) =
      bs.filter fun b => selectsPlaces plan rg (r.idx.places b.key) := by
    refine List.filter_congr fun b hb => ?_
    obtain ⟨k, hcell, hok⟩ := hinv.key_live hb
    have hplaces : r.idx.places b.key = places k := by
      simp [CompoundIndex.places, refPlaces, hcell]
    rw [Bool.eq_iff_iff, hplaces, selectsPlaces_iff hinv.cmpFuncs hok (hspec ▸ hplan) hrg]
    simp [selectsNode, hcell]
  have htable : a.table.listing.filter (fun e => a.selects plan rg e.2) =
      a.table.listing.filter fun e => selectsPlaces plan rg (places e.2) := by
    refine List.filter_congr fun e he => ?_
    have hk := a.typed (Placed.mem_listing.1 (show (e.1, e.2) ∈ a.table.listing from he))
    rw [Bool.eq_iff_iff, selectsPlaces_iff a.cmpFuncs hk hplan hrg, ServedIndex.selects,
      decide_eq_true_eq]
  calc
    (bs.filter (selectsNode r.idx plan rg)).flatMap Bucket.vals
        = ((bs.flatMap fun b => b.vals.map fun id => (id, r.idx.places b.key)).filter
            fun e => selectsPlaces plan rg e.2).map Prod.fst := by
          rw [hnodes, map_fst_filter_flatMap]
    _ = ((a.table.listing.map fun e => (e.1, places e.2)).filter
            fun e => selectsPlaces plan rg e.2).map Prod.fst := by rw [h.listing hinv]
    _ = (a.table.listing.filter fun e => selectsPlaces plan rg (places e.2)).map Prod.fst := by
          rw [List.filter_map, List.map_map]
          rfl
    _ = (a.table.listing.filter fun e => a.selects plan rg e.2).map Prod.fst := by rw [htable]

/-- With a round for each id and one more, the loop of IDX.SELECT ends. -/
theorem selectLoop_of_drains {idx : CompoundIndex} {sc : CiScanCtx} {ids : List SIId}
    (h : Drains idx sc ids) (memory : CursorWords) :
    ∀ fuel, ids.length < fuel → ∃ sc',
      selectLoop idx fuel (scanCursor memory sc) = .ok (scanCursor memory sc', ids) := by
  induction h with
  | @done sc sc' next =>
      intro fuel hfuel
      obtain ⟨fuel, rfl⟩ := Nat.exists_eq_succ_of_ne_zero (Nat.ne_of_gt hfuel)
      refine ⟨sc', ?_⟩
      rw [selectLoop, callNext_scanCursor, next]
      rfl
  | @next sc sc' id ids next _ ih =>
      intro fuel hfuel
      obtain ⟨fuel, rfl⟩ := Nat.exists_eq_succ_of_ne_zero (Nat.ne_of_gt (Nat.zero_lt_of_lt hfuel))
      obtain ⟨sc'', hrest⟩ := ih fuel (by simpa using hfuel)
      refine ⟨sc'', ?_⟩
      rw [selectLoop, callNext_scanCursor, next]
      simp only [ok_bind, hrest]

end Select

/-! ## Saving and loading -/

section Reload

variable {db : Keyspace} {s : Service} {r : RedisIndex} {a : ServedIndex}

/-- An index that is saved and loaded stands for what it stood for. -/
theorem StandsFor.reload (h : StandsFor r a) (draw : Nat → Level) :
    ∃ io idx', redisIndexRdbSave r = .ok io ∧
      StateT.run (redisIndexRdbLoad draw 0) io = .ok (some { r with idx := idx' }, []) ∧
      StandsFor { r with idx := idx' } a := by
  obtain ⟨⟨hspec, bs, hinv⟩, hfs, hm⟩ := h.stands
  obtain ⟨idx₀, hnew, hfs₀⟩ := siNewCompoundIndex_served a.schema
  have hnew' : siNewCompoundIndex r.spec = .ok idx₀ := by rw [h.spec]; exact hnew
  have hsame : r.spec.loaded = r.spec := by
    rw [h.spec]
    exact loaded_eq_iff.2 a.schema.property.named
  obtain ⟨io, idx', m, hsave, hload, hm', _, hloaded⟩ :=
    loads_of_single hinv (hspec.trans h.spec.symm) hnew' (hfs.trans hfs₀.symm) hsame
      (hinv.single_iff.1 h.noEqualTuples) draw
  rw [h.spec, hfs₀] at hloaded
  obtain ⟨⟨hspec', bs', hinv'⟩, hfs', hmirrors⟩ := hloaded
  refine ⟨io, idx', hsave, hload, h.kind, h.spec, ⟨hspec', bs', hinv'⟩, hfs', ?_⟩
  -- The records have the tuples of the index that was saved.
  refine hm.of_places hinv hinv' (hspec'.trans hspec.symm) fun id x => ?_
  rw [hmirrors.place_iff hinv', hm' id]

theorem reloadKey_spec (h : Serves db s) (draw : Nat → Level) (key : RedisModuleString) :
    ∃ db', reloadKey draw db key = .ok db' ∧ Serves db' s := by
  rw [reloadKey]
  rcases h.index_cases key with ⟨r, a, hr, ha, hstands⟩ | ⟨_, _, hother⟩
  · obtain ⟨io, idx', hsave, hload, hstands'⟩ := hstands.reload draw
    simp only [hr, hsave, ok_bind, hload, orFault_some]
    exact ⟨_, rfl, h.replace ha hstands'⟩
  · refine ⟨db, ?_, h⟩
    cases hvalue : db key with
    | none => rfl
    | some v =>
        cases v with
        | index r => exact absurd hvalue (hother r)
        | _ => rfl

end Reload

end Secondary
