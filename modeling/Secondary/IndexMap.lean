import Secondary.IndexChange
import Secondary.Skiplist.Run

/-!
# IndexMap — an index under any sequence of changesets

A compound index stands for a finite map from ids to tuples.  The map takes the changes by itself
(`applyToMap`), and `RepresentsMap` says what an index has to do with its map: nodes, reverse index
and counter all agree with it.  The invariant of a single change carries over to runs, as long as
no change needs a key that other ids still use.
-/

namespace Secondary

open Lib

/-! ## New indexes -/

theorem fillCmpFuncs_length {properties : List SIIndexProperty} :
    ∀ {fuel : Nat} {i : UInt8} {fs fs' : List SIKeyCmpFunc},
      fillCmpFuncs properties fuel i fs = .ok fs' → properties.length ≤ 255
  | 0, _, _, _, h => by cases h
  | fuel + 1, i, fs, fs', h => by
      by_cases hi : i.toNat < properties.length
      · simp only [fillCmpFuncs, hi, if_true] at h
        obtain ⟨p, _, h⟩ := bind_eq_ok.1 h
        obtain ⟨f, _, h⟩ := bind_eq_ok.1 h
        exact fillCmpFuncs_length h
      · have := i.toNat_lt
        omega

/-- The loop appends the comparators of the columns from the counter on. -/
theorem fillCmpFuncs_spec {properties : List SIIndexProperty} :
    ∀ {fuel : Nat} {i : UInt8} {fs fs' : List SIKeyCmpFunc},
      fillCmpFuncs properties fuel i fs = .ok fs' →
        ∃ rest, fs' = fs ++ rest ∧
          CmpFuncsOf ((properties.drop i.toNat).map SIIndexProperty.type) rest
  | 0, _, _, _, h => by cases h
  | fuel + 1, i, fs, fs', h => by
      have hlen := fillCmpFuncs_length h
      by_cases hi : i.toNat < properties.length
      · simp only [fillCmpFuncs, hi, if_true] at h
        obtain ⟨p, hp, h⟩ := bind_eq_ok.1 h
        obtain ⟨f, hf, h⟩ := bind_eq_ok.1 h
        obtain ⟨rest, rfl, hrest⟩ := fillCmpFuncs_spec h
        have hp' : properties[i.toNat]? = some p := orFault_eq_ok.1 hp
        have hsucc : (i + 1).toNat = i.toNat + 1 := by
          rw [UInt8.toNat_add]
          have : (1 : UInt8).toNat = 1 := rfl
          omega
        refine ⟨f :: rest, by simp, ?_⟩
        rw [hsucc] at hrest
        rw [List.drop_eq_getElem_cons hi, List.map_cons]
        obtain rfl : properties[i.toNat] = p := by simpa [hi] using hp'
        exact .cons hf hrest
      · simp only [fillCmpFuncs, hi, if_false, Except.ok.injEq] at h
        refine ⟨[], by simp [h], ?_⟩
        rw [List.drop_eq_nil_iff.2 (by omega)]
        exact .nil

/-- A new index holds nothing. -/
theorem indexInv_new {spec : SISpec} {idx : CompoundIndex}
    (h : siNewCompoundIndex spec = .ok idx) :
    IndexInv idx [] ∧ idx.spec = spec ∧ ∀ id, idx.content id = none := by
  obtain ⟨fs, hfill, heq⟩ := bind_eq_ok.1 h
  obtain rfl := Except.ok.inj heq
  have hlen := fillCmpFuncs_length hfill
  obtain ⟨rest, hfs, hrest⟩ := fillCmpFuncs_spec hfill
  refine ⟨?_, rfl, fun id => rfl⟩
  exact
    { cmpFuncs := by simpa [hfs, SISpec.types] using hrest
      numFuncs := by
        show (UInt8.ofNat spec.numProps).toNat = spec.types.length
        simp only [SISpec.numProps, SISpec.types, List.length_map, UInt8.toNat_ofNat']
        omega
      rep := rep_create
      sorted := List.Pairwise.nil
      nonempty := by simp
      nodup := by simp
      mem := fun _ => by simp [Finmap.notMem_empty]
      live := by simp
      inj := by simp
      head := by simp
      same := by simp
      length := rfl
      unique := by simp }

/-! ## Runs of changesets -/

/-- One call of `compoundIndex_Apply`, its result code dropped. -/
def applyStep (idx : CompoundIndex) (cs : List (SIChange × Level)) : Exec CompoundIndex := do
  let r ← compoundIndexApply idx cs
  .ok r.1

/-- `P` holds of the index and the change at every change that `compoundIndex_Apply` gets to. -/
def EveryChange (P : CompoundIndex → SIChange → Prop) :
    CompoundIndex → List (SIChange × Level) → Prop
  | _, [] => True
  | idx, ch :: cs =>
      P idx ch.1 ∧ ∀ idx' code, compoundIndexApplyChange idx ch.1 ch.2 = .ok (idx', code) →
        code = siIndexOk ∨ code = siIndexNotfound → EveryChange P idx' cs

/-- `EveryChange` is checked along the changeset. -/
instance decidableEveryChange (P : CompoundIndex → SIChange → Prop)
    [∀ idx ch, Decidable (P idx ch)] :
    ∀ (idx : CompoundIndex) (cs : List (SIChange × Level)), Decidable (EveryChange P idx cs)
  | _, [] => .isTrue trivial
  | idx, ch :: cs =>
      match h : compoundIndexApplyChange idx ch.1 ch.2 with
      | .error _ => decidable_of_iff (P idx ch.1) (by simp [EveryChange, h])
      | .ok (idx', code) =>
          have := decidableEveryChange P idx' cs
          decidable_of_iff
            (P idx ch.1 ∧ (code = siIndexOk ∨ code = siIndexNotfound → EveryChange P idx' cs))
            (by simp [EveryChange, h])

/-- No change drops the entry of an id whose tuple is the key of a node with other ids. -/
def KeysNotShared : CompoundIndex → List (SIChange × Level) → Prop :=
  EveryChange fun idx ch => ch.Drops idx.spec.types → KeyNotShared idx ch.id

instance (idx : CompoundIndex) (cs : List (SIChange × Level)) : Decidable (KeysNotShared idx cs) :=
  inferInstanceAs (Decidable
    (EveryChange (fun idx ch => ch.Drops idx.spec.types → KeyNotShared idx ch.id) idx cs))

/-- The changes of a changeset are typed: their tuples have values of the columns' types and no
NaN. -/
def Typed (spec : SISpec) (cs : List (SIChange × Level)) : Prop :=
  ∀ ch ∈ cs, ch.1.Typed spec.types

instance (spec : SISpec) : DecidablePred (Typed spec) := fun cs =>
  inferInstanceAs (Decidable (∀ ch ∈ cs, ch.1.Typed spec.types))

/-- Some buckets stand for the index. -/
def Inv (spec : SISpec) (idx : CompoundIndex) : Prop :=
  idx.spec = spec ∧ ∃ bs, IndexInv idx bs

/-- What one change can do where it needs no key that is shared. -/
theorem Inv.applyChange {spec : SISpec} {idx : CompoundIndex} {ch : SIChange}
    (h : Inv spec idx) (htyped : ch.Typed spec.types)
    (hk : spec.isUnique = true ∨ (ch.Drops idx.spec.types → KeyNotShared idx ch.id))
    (level : Level) :
    ∃ idx' code, compoundIndexApplyChange idx ch level = .ok (idx', code) ∧ Inv spec idx' ∧
      idx'.cmpFuncs = idx.cmpFuncs ∧ Changed idx ch idx' code := by
  obtain ⟨rfl, bs, hinv⟩ := h
  have hkey : ch.Drops idx.spec.types →
      ∀ r, idx.ri.lookup ch.id = some r → ∀ b ∈ bs, b.key = r → b.vals = [ch.id] := by
    intro hdrops r hl
    rcases hk with hu | hk
    · exact hinv.vals_of_unique hu hl
    · exact hinv.vals_of_keyNotShared (hk hdrops) hl
  obtain ⟨idx', bs', code, hrun, hinv', hsame, hchanged⟩ := hinv.applyChange htyped hkey level
  exact ⟨idx', code, hrun, ⟨hsame.spec, bs', hinv'⟩, hsame.cmpFuncs, hchanged⟩

/-! ## The map of an index -/

abbrev TupleMap : Type :=
  Finmap fun _ : SIId => SIMultiKey

/-- An id other than `id` has a tuple that compares equal to `vals`. -/
def Taken (fs : List SIKeyCmpFunc) (m : TupleMap) (id : SIId) (vals : List SIValue) : Prop :=
  ∃ id' k, id' ≠ id ∧ m.lookup id' = some k ∧ CompareEqual fs k vals

open Classical in
/-- One change of the map, and whether it is accepted. -/
noncomputable def changeMap (spec : SISpec) (fs : List SIKeyCmpFunc) (m : TupleMap)
    (ch : SIChange) : TupleMap × Bool :=
  match ch.type with
  | .chAdd =>
      if ch.v.length ≠ spec.types.length ∨ (spec.isUnique = true ∧ Taken fs m ch.id ch.v) then
        (m, false)
      else
        (m.insert ch.id ch.v, true)
  | .chDel => (m.erase ch.id, true)
  | .unknown => (m, false)

/-- The changes of a changeset, up to the first one that is rejected. -/
noncomputable def applyToMap (spec : SISpec) (fs : List SIKeyCmpFunc) :
    TupleMap → List (SIChange × Level) → TupleMap
  | m, [] => m
  | m, ch :: cs =>
      if (changeMap spec fs m ch.1).2 then
        applyToMap spec fs (changeMap spec fs m ch.1).1 cs
      else
        (changeMap spec fs m ch.1).1

/-- All ids that the nodes of a chain hold. -/
def idsOf (sl : Skiplist KeyRef SIId) (as : List Nat) : List SIId :=
  as.flatMap fun x => (sl.nodes.valsAt? x).getD []

/-- The parts of the index agree with the map. -/
structure RepresentsMap (idx : CompoundIndex) (m : TupleMap) : Prop where
  /-- The nodes on level 0 hold every id of the map once, and no other. -/
  nodes : ∃ as, Chain idx.sl.nodes 0 (some idx.sl.header) (idx.sl.header :: as) ∧
    (idx.sl.header :: as).Nodup ∧
    (∀ id, (idsOf idx.sl as).count id = if id ∈ m then 1 else 0) ∧
    ∀ x ∈ as, ∀ vs, idx.sl.nodes.valsAt? x = some vs → ∀ id ∈ vs,
      ∃ r r', idx.sl.nodes.objAt? x = some r ∧ idx.ri.lookup id = some r' ∧
        idx.compare r r' = .ok 0
  ids : ∀ id, id ∈ idx.ri ↔ id ∈ m
  tuples : ∀ id k, m.lookup id = some k →
    ∃ k', idx.content id = some k' ∧ CompareEqual idx.cmpFuncs k' k
  length : idx.length = m.keys.card

/-- The index and the map hold tuples that compare equal. -/
structure Mirrors (idx : CompoundIndex) (m : TupleMap) : Prop where
  typed : ∀ id k, m.lookup id = some k → KeyOk idx.spec.types k
  content : ∀ id, Option.Rel (CompareEqual idx.cmpFuncs) (idx.content id) (m.lookup id)

section Mirrors

variable {idx idx' : CompoundIndex} {m : TupleMap} {bs : List (Bucket KeyRef SIId)}

/-- The index and the map see the same conflicts. -/
theorem Mirrors.conflict_iff (h : Mirrors idx m) (hinv : IndexInv idx bs) (id : SIId)
    {vals : List SIValue} (hvals : KeyOk idx.spec.types vals) :
    idx.Conflict id vals ↔ Taken idx.cmpFuncs m id vals := by
  have hstep : ∀ id', (∃ k, idx.content id' = some k ∧ CompareEqual idx.cmpFuncs k vals) ↔
      ∃ k, m.lookup id' = some k ∧ CompareEqual idx.cmpFuncs k vals := by
    intro id'
    have hrel := h.content id'
    cases hk : idx.content id' with
    | none =>
        rw [hk] at hrel
        cases hm : m.lookup id' with
        | none => simp
        | some k' => simp [hm] at hrel
    | some k =>
        rw [hk] at hrel
        cases hm : m.lookup id' with
        | none => simp [hm] at hrel
        | some k' =>
            rw [hm, Option.rel_some_some] at hrel
            have := compareEqual_congr hinv.cmpFuncs (hinv.content_ok hk) (h.typed id' k' hm) hvals
              hrel
            simpa using this
  constructor
  · rintro ⟨id', k, hne, hk⟩
    obtain ⟨k', hk'⟩ := (hstep id').1 ⟨k, hk⟩
    exact ⟨id', k', hne, hk'⟩
  · rintro ⟨id', k, hne, hk⟩
    obtain ⟨k', hk'⟩ := (hstep id').2 ⟨k, hk⟩
    exact ⟨id', k', hne, hk'⟩

theorem Mirrors.of_content (h : Mirrors idx m) (hspec : idx'.spec = idx.spec)
    (hfs : idx'.cmpFuncs = idx.cmpFuncs) (hcontent : ∀ id, idx'.content id = idx.content id) :
    Mirrors idx' m where
  typed := by
    rw [hspec]
    exact h.typed
  content := by
    intro id
    rw [hfs, hcontent id]
    exact h.content id

theorem Mirrors.erase (h : Mirrors idx m) {id : SIId} (hspec : idx'.spec = idx.spec)
    (hfs : idx'.cmpFuncs = idx.cmpFuncs)
    (hcontent : ∀ id', idx'.content id' = if id' = id then none else idx.content id') :
    Mirrors idx' (m.erase id) where
  typed := by
    intro id' k hk
    rw [hspec]
    exact h.typed id' k (lookup_of_erase hk).2
  content := by
    intro id'
    rw [hfs, hcontent id']
    by_cases hid : id' = id
    · subst hid
      simp
    · rw [if_neg hid, Finmap.lookup_erase_ne hid]
      exact h.content id'

theorem Mirrors.insert (h : Mirrors idx m) {id : SIId} {vals k : SIMultiKey}
    (hspec : idx'.spec = idx.spec) (hfs : idx'.cmpFuncs = idx.cmpFuncs)
    (hvals : KeyOk idx.spec.types vals) (hk : CompareEqual idx.cmpFuncs k vals)
    (hcontent : ∀ id', idx'.content id' = if id' = id then some k else idx.content id') :
    Mirrors idx' (m.insert id vals) where
  typed := by
    intro id' k' hk'
    rw [hspec]
    rcases lookup_of_insert hk' with ⟨_, rfl⟩ | ⟨_, hlookup⟩
    · exact hvals
    · exact h.typed id' k' hlookup
  content := by
    intro id'
    rw [hfs, hcontent id']
    by_cases hid : id' = id
    · subst hid
      simpa using hk
    · rw [if_neg hid, Finmap.lookup_insert_of_ne _ hid]
      exact h.content id'

/-- A change does the same to the index and to the map. -/
theorem Mirrors.change (h : Mirrors idx m) (hinv : IndexInv idx bs) {ch : SIChange} {code : Int}
    (htyped : ch.Typed idx.spec.types) (hspec : idx'.spec = idx.spec)
    (hfs : idx'.cmpFuncs = idx.cmpFuncs) (hchanged : Changed idx ch idx' code) :
    Mirrors idx' (changeMap idx.spec idx.cmpFuncs m ch).1 ∧
      ((changeMap idx.spec idx.cmpFuncs m ch).2 = true ↔
        code = siIndexOk ∨ code = siIndexNotfound) := by
  cases hchanged with
  | rejected bad =>
      rcases bad with htype | ⟨htype, hlen⟩
      · exact ⟨by simpa [changeMap, htype] using h, by simp [changeMap, htype]; decide⟩
      · exact ⟨by simpa [changeMap, htype, hlen] using h, by simp [changeMap, htype, hlen]; decide⟩
  | missing type absent =>
      refine ⟨?_, by simp [changeMap, type]⟩
      have herase : Mirrors idx (m.erase ch.id) := h.erase rfl rfl (by
        intro id'
        by_cases hid : id' = ch.id
        · simp [hid, absent]
        · simp [hid])
      simpa [changeMap, type] using herase
  | removed type content =>
      refine ⟨?_, by simp [changeMap, type]⟩
      simpa [changeMap, type] using h.erase hspec hfs content
  | added type arity outcome =>
      have hvals := htyped type arity
      have hiff := h.conflict_iff hinv ch.id hvals
      cases outcome with
      | duplicate unique conflict _ _ _ content =>
          have htaken := hiff.1 conflict
          refine ⟨?_, by simp [changeMap, type, unique, htaken]; decide⟩
          simpa [changeMap, type, unique, htaken] using h.of_content hspec hfs content
      | kept unique own equal alone content =>
          -- The index keeps the old tuple, which compares equal to the one of the map.
          have hfree : ¬Taken idx.cmpFuncs m ch.id ch.v := fun ht => alone (hiff.2 ht)
          refine ⟨?_, by simp [changeMap, type, arity, unique, hfree]⟩
          have hins : Mirrors idx' (m.insert ch.id ch.v) := h.insert hspec hfs hvals equal (by
            intro id'
            rw [content id']
            by_cases hid : id' = ch.id
            · simp [hid, own]
            · simp [hid])
          simpa [changeMap, type, arity, unique, hfree] using hins
      | stored alone content =>
          have hfree : ¬(idx.spec.isUnique = true ∧ Taken idx.cmpFuncs m ch.id ch.v) :=
            fun ht => alone ht.1 (hiff.2 ht.2)
          refine ⟨?_, by simp [changeMap, type, arity, hfree]⟩
          have hself := CompareEqual.refl hinv.cmpFuncs hvals
          simpa [changeMap, type, arity, hfree] using h.insert hspec hfs hvals hself content

end Mirrors

/-! ## The map after a run -/

/-- An index that the invariant holds of, and the map it stands for. -/
def Stands (spec : SISpec) (fs : List SIKeyCmpFunc) (idx : CompoundIndex) (m : TupleMap) : Prop :=
  Inv spec idx ∧ idx.cmpFuncs = fs ∧ Mirrors idx m

section Runs

variable {spec : SISpec} {fs : List SIKeyCmpFunc} {idx : CompoundIndex} {m : TupleMap}

theorem Stands.change (h : Stands spec fs idx m) {ch : SIChange} (htyped : ch.Typed spec.types)
    (hk : spec.isUnique = true ∨ (ch.Drops idx.spec.types → KeyNotShared idx ch.id))
    (level : Level) :
    ∃ idx' code, compoundIndexApplyChange idx ch level = .ok (idx', code) ∧
      Changed idx ch idx' code ∧ Stands spec fs idx' (changeMap spec fs m ch).1 ∧
      ((changeMap spec fs m ch).2 = true ↔ code = siIndexOk ∨ code = siIndexNotfound) := by
  obtain ⟨hinv, hfs, hm⟩ := h
  obtain ⟨idx', code, hrun, hinv', hfs', hchanged⟩ := hinv.applyChange htyped hk level
  obtain ⟨hspec, bs, hbs⟩ := hinv
  subst hspec
  have hstep := hm.change hbs htyped hinv'.1 hfs' hchanged
  rw [hfs] at hstep
  exact ⟨idx', code, hrun, hchanged, ⟨hinv', hfs'.trans hfs, hstep.1⟩, hstep.2⟩

/-- One changeset, change by change. -/
theorem Stands.apply :
    ∀ {cs : List (SIChange × Level)} {idx : CompoundIndex} {m : TupleMap}, Stands spec fs idx m →
      Typed spec cs → spec.isUnique = true ∨ KeysNotShared idx cs →
      ∃ idx' code, compoundIndexApply idx cs = .ok (idx', code) ∧
        Stands spec fs idx' (applyToMap spec fs m cs) := by
  intro cs
  induction cs with
  | nil =>
      intro idx m h _ _
      exact ⟨idx, siIndexOk, rfl, h⟩
  | cons ch cs ih =>
      intro idx m h htyped hk
      have hkey : spec.isUnique = true ∨
          (ch.1.Drops idx.spec.types → KeyNotShared idx ch.1.id) := hk.imp_right And.left
      obtain ⟨idx₁, code, hrun, _, hstands, hcode⟩ :=
        h.change (htyped ch (by simp)) hkey ch.2
      by_cases hgo : code = siIndexOk ∨ code = siIndexNotfound
      · have hkeys : spec.isUnique = true ∨ KeysNotShared idx₁ cs :=
          hk.imp_right fun hk => hk.2 idx₁ code hrun hgo
        obtain ⟨idx', code', hrun', hstands'⟩ :=
          ih hstands (fun c hc => htyped c (List.mem_cons_of_mem _ hc)) hkeys
        refine ⟨idx', code', ?_, ?_⟩
        · have hcont : ¬(code ≠ siIndexOk ∧ code ≠ siIndexNotfound) := by tauto
          simp [compoundIndexApply, hrun, hcont, hrun']
        · simpa [applyToMap, hcode.2 hgo] using hstands'
      · refine ⟨idx₁, code, ?_, ?_⟩
        · have hstop : code ≠ siIndexOk ∧ code ≠ siIndexNotfound := by tauto
          simp [compoundIndexApply, hrun, hstop]
        · have hrejected : ¬(changeMap spec fs m ch.1).2 = true := fun h => hgo (hcode.1 h)
          simpa [applyToMap, hrejected] using hstands

/-- The changesets of a run: where no key is shared when it is dropped, the index and the map go
together. -/
theorem Stands.run (h : Stands spec fs idx m) {css : List (List (SIChange × Level))}
    (htyped : ∀ cs ∈ css, Typed spec cs)
    (hkeys : spec.isUnique = true ∨ Every applyStep KeysNotShared idx css) :
    ∃ idx', run applyStep idx css = .ok idx' ∧
      Stands spec fs idx' (css.foldl (applyToMap spec fs) m) := by
  have hevery : Every applyStep
      (fun idx cs => Typed spec cs ∧ (spec.isUnique = true ∨ KeysNotShared idx cs)) idx css := by
    have htyped' : Every applyStep (fun _ cs => Typed spec cs) idx css :=
      every_of_mem fun cs hcs _ => htyped cs hcs
    rcases hkeys with hu | hkeys
    · exact htyped'.and (every_of_mem fun _ _ _ => Or.inl hu)
    · exact htyped'.and (hkeys.mono fun _ _ hk => Or.inr hk)
  refine run_of_simulation (Stands spec fs) (applyToMap spec fs) ?_ css idx m h hevery
  intro s t cs hst hp
  obtain ⟨s', code, hrun, hst'⟩ := hst.apply hp.1 hp.2
  exact ⟨s', by simp [applyStep, hrun], hst'⟩

/-- A new index stands for the empty map. -/
theorem stands_new (h : siNewCompoundIndex spec = .ok idx) : Stands spec idx.cmpFuncs idx ∅ := by
  obtain ⟨hinv, hspec, hcontent⟩ := indexInv_new h
  refine ⟨⟨hspec, [], hinv⟩, rfl, ?_, ?_⟩
  · simp
  · intro id
    simp [hcontent id]

/-- An index that the changesets of some run lead to, with the map that they make.  No change of
the run drops the entry of an id whose tuple is the key of a node with other ids. -/
def Reached (spec : SISpec) (idx : CompoundIndex) (m : TupleMap) : Prop :=
  ∃ idx₀ css, siNewCompoundIndex spec = .ok idx₀ ∧ (∀ cs ∈ css, Typed spec cs) ∧
    (spec.isUnique = true ∨ Every applyStep KeysNotShared idx₀ css) ∧
    run applyStep idx₀ css = .ok idx ∧ m = css.foldl (applyToMap spec idx₀.cmpFuncs) ∅

theorem Reached.stands (h : Reached spec idx m) : Stands spec idx.cmpFuncs idx m := by
  obtain ⟨idx₀, css, hnew, htyped, hkeys, hrun, rfl⟩ := h
  obtain ⟨idx', hrun', hstands⟩ := (stands_new hnew).run htyped hkeys
  obtain rfl : idx = idx' := Except.ok.inj (hrun.symm.trans hrun')
  rwa [hstands.2.1]

/-- The parts of an index agree with the map it stands for. -/
theorem Stands.represents (h : Stands spec fs idx m) : RepresentsMap idx m := by
  obtain ⟨⟨_, bs, hinv⟩, _, hm⟩ := h
  have hids : ∀ id, id ∈ idx.ri ↔ id ∈ m := by
    intro id
    have hrel := hm.content id
    rw [hinv.exists_content, Finmap.mem_iff]
    cases hk : idx.content id <;> cases hk' : m.lookup id <;> simp [hk, hk'] at hrel ⊢
  -- The ids on the list are those of the buckets, each with its count.
  have hall : idsOf idx.sl (bs.map Bucket.tag) = Bucket.allVals bs := by
    rw [idsOf, Bucket.allVals, List.flatMap_map]
    refine List.flatMap_congr fun b hb => ?_
    rw [hinv.rep.vals b hb, Option.getD_some]
  refine ⟨⟨bs.map Bucket.tag, ?_, hinv.rep.linked.nodup, ?_, ?_⟩, hids, ?_, ?_⟩
  · exact hinv.rep.linked.level0
  · intro id
    rw [hall]
    by_cases hid : id ∈ m
    · simp [hid, List.count_eq_one_of_mem hinv.nodup ((hinv.mem id).2 ((hids id).2 hid))]
    · have hno : id ∉ Bucket.allVals bs := fun h' => hid ((hids id).1 ((hinv.mem id).1 h'))
      simp [hid, List.count_eq_zero_of_not_mem hno]
  · intro x hx vs hvs id hid
    obtain ⟨b, hb, rfl⟩ := List.mem_map.1 hx
    obtain rfl : b.vals = vs := Option.some.inj ((hinv.rep.vals b hb).symm.trans hvs)
    obtain ⟨r', hl⟩ := Finmap.mem_iff.1 ((hinv.mem id).1 (Bucket.mem_allVals.2 ⟨b, hb, hid⟩))
    refine ⟨b.key, r', hinv.rep.obj b hb, hl, ?_⟩
    have hcmp := (compareKeys_signs hinv.cmpFuncs (hinv.key_live hb) (hinv.live id r' hl)).1
    have hzero : refCmp idx.cmpFuncs idx.keys b.key r' = 0 := hinv.same b hb id hid r' hl
    rwa [hzero] at hcmp
  · intro id k hk
    have hrel := hm.content id
    rw [hk] at hrel
    cases hk' : idx.content id with
    | none => simp [hk'] at hrel
    | some k' => exact ⟨k', rfl, by simpa [hk'] using hrel⟩
  · have hperm : (Bucket.allVals bs).toFinset = m.keys := by
      ext id
      rw [List.mem_toFinset, hinv.mem, hids, Finmap.mem_keys]
    rw [hinv.length, ← hperm, List.toFinset_card_of_nodup hinv.nodup]

end Runs

/-! ## The index is the map -/

/-- An index represents the map that its changes make, in every run in which no change drops the
entry of an id whose tuple is still the key of a node with other ids.  A unique index has no such
nodes. -/
theorem compoundIndex_represents_map {spec : SISpec} {idx₀ : CompoundIndex}
    (hnew : siNewCompoundIndex spec = .ok idx₀) {css : List (List (SIChange × Level))}
    (htyped : ∀ cs ∈ css, Typed spec cs)
    (hkeys : spec.isUnique = true ∨ Every applyStep KeysNotShared idx₀ css) :
    ∃ idx, run applyStep idx₀ css = .ok idx ∧
      RepresentsMap idx (css.foldl (applyToMap spec idx₀.cmpFuncs) ∅) := by
  obtain ⟨idx, hrun, hstands⟩ := (stands_new hnew).run htyped hkeys
  exact ⟨idx, hrun, hstands.represents⟩

/-- An index of one column, with no name. -/
def oneColumn (t : SIType) (flags : UInt32) : SISpec :=
  { properties := [{ type := t, flags := 0, name := none }], flags := flags }

def twoColumns (s t : SIType) (flags : UInt32) : SISpec where
  properties := [{ type := s, flags := 0, name := none }, { type := t, flags := 0, name := none }]
  flags := flags

/-- The id of one letter. -/
def letter (c : UInt8) (h : c ≠ 0) : SIId :=
  ⟨[c], by simpa using h.symm⟩

def level1 : Level :=
  ⟨1, by decide⟩

def add (id : SIId) (v : SIValue) : SIChange × Level :=
  ({ type := .chAdd, id := id, v := [v] }, level1)

def addPair (id : SIId) (v w : SIValue) : SIChange × Level :=
  ({ type := .chAdd, id := id, v := [v, w] }, level1)

def del (id : SIId) : SIChange × Level :=
  ({ type := .chDel, id := id, v := [] }, level1)

def idA : SIId := letter 97 (by decide)

def idB : SIId := letter 98 (by decide)

def idC : SIId := letter 99 (by decide)

/-- Two ids share a node, the one that leaves is not the one that the node's key is from, and an
entry is replaced. -/
theorem compoundIndex_represents_map_int :
    ∃ idx₀, siNewCompoundIndex (oneColumn .int32 0) = .ok idx₀ ∧
      ∃ idx, run applyStep idx₀
          [[add idA (.int32 1), add idB (.int32 1)], [del idB], [add idA (.int32 2)]] = .ok idx ∧
        RepresentsMap idx
          ([[add idA (.int32 1), add idB (.int32 1)], [del idB], [add idA (.int32 2)]].foldl
            (applyToMap (oneColumn .int32 0) idx₀.cmpFuncs) ∅) := by
  refine ⟨_, rfl, compoundIndex_represents_map rfl ?_ (Or.inr ?_)⟩
  · decide
  · decide +kernel

/-- The id that a node's key is from leaves, another id stays in the node, and the next search
reads the key that has been freed. -/
def sharedKeyRun : List (List (SIChange × Level)) :=
  [[add idA (.int32 1)], [add idB (.int32 1)], [del idA], [add idC (.int32 2)]]

theorem compoundIndex_sharedKeyRun_represents_nothing :
    ∃ idx₀, siNewCompoundIndex (oneColumn .int32 0) = .ok idx₀ ∧
      (∀ cs ∈ sharedKeyRun, Typed (oneColumn .int32 0) cs) ∧
      ¬∃ idx, run applyStep idx₀ sharedKeyRun = .ok idx ∧
        RepresentsMap idx
          (sharedKeyRun.foldl (applyToMap (oneColumn .int32 0) idx₀.cmpFuncs) ∅) := by
  refine ⟨_, rfl, by decide, ?_⟩
  rintro ⟨idx, hrun, _⟩
  cases hrun

/-! ## Unique indexes -/

/-- In a unique index no two ids ever hold tuples that compare equal, and an ADD is a duplicate
exactly when another id holds such a tuple; then it changes nothing. -/
theorem compoundIndex_unique {spec : SISpec} {idx₀ : CompoundIndex}
    (hnew : siNewCompoundIndex spec = .ok idx₀) (hu : spec.isUnique = true)
    {css : List (List (SIChange × Level))} (htyped : ∀ cs ∈ css, Typed spec cs) :
    ∃ idx, run applyStep idx₀ css = .ok idx ∧
      (∃ as, Chain idx.sl.nodes 0 (some idx.sl.header) (idx.sl.header :: as) ∧
        ∀ x ∈ as, ∃ id, idx.sl.nodes.valsAt? x = some [id]) ∧
      (∀ id id' k k', idx.content id = some k → idx.content id' = some k' →
        CompareEqual idx.cmpFuncs k k' → id = id') ∧
      ∀ id vals, KeyOk spec.types vals → ∀ level, ∃ idx' code,
        compoundIndexApply idx [({ type := .chAdd, id := id, v := vals }, level)] =
          .ok (idx', code) ∧
        (code = siIndexDuplicateKey ↔ idx.Conflict id vals) ∧
        (code = siIndexDuplicateKey →
          idx'.sl = idx.sl ∧ idx'.ri = idx.ri ∧ idx'.length = idx.length) := by
  obtain ⟨idx, hrun, ⟨rfl, bs, hinv⟩, _, _⟩ := (stands_new hnew).run htyped (Or.inl hu)
  refine ⟨idx, hrun, ⟨bs.map Bucket.tag, hinv.rep.linked.level0, ?_⟩,
    hinv.single_iff.2 (hinv.unique hu), ?_⟩
  · intro x hx
    obtain ⟨b, hb, rfl⟩ := List.mem_map.1 hx
    obtain ⟨id, hid⟩ := hinv.unique hu b hb
    exact ⟨id, by rw [hinv.rep.vals b hb, hid]⟩
  · intro id vals hvals level
    obtain ⟨idx', bs', code, hrun', _, _, hadded, _⟩ :=
      hinv.applyAdd_unique hu hvals id level
    -- One change is applied: how it ends says what was found.
    have hchange : compoundIndexApplyChange idx { type := .chAdd, id := id, v := vals } level =
        .ok (idx', code) := by
      simp [compoundIndexApplyChange, hinv.numFuncs, hvals.length_eq, hrun']
    refine ⟨idx', code, ?_⟩
    cases hadded with
    | duplicate unique conflict sl ri length content =>
        refine ⟨?_, by simp [conflict], fun _ => ⟨sl, ri, length⟩⟩
        simp [compoundIndexApply, hchange]
        decide
    | kept unique own equal alone content =>
        refine ⟨by simp [compoundIndexApply, hchange], ?_, fun h => absurd h (by decide)⟩
        simp [alone]
        decide
    | stored alone content =>
        refine ⟨by simp [compoundIndexApply, hchange], ?_, fun h => absurd h (by decide)⟩
        simp [alone hu]
        decide

/-- The tuple of `a` is taken, then `a` moves away, then it is free for `b`. -/
theorem compoundIndex_unique_string :
    ∃ idx₀, siNewCompoundIndex (oneColumn .string siIndexUnique) = .ok idx₀ ∧
      ∃ idx, run applyStep idx₀
          [[add idA (.string [120])], [add idB (.string [88])], [add idA (.string [121])],
            [add idB (.string [120])]] = .ok idx ∧
        (∃ as, Chain idx.sl.nodes 0 (some idx.sl.header) (idx.sl.header :: as) ∧
          ∀ x ∈ as, ∃ id, idx.sl.nodes.valsAt? x = some [id]) ∧
        (∀ id id' k k', idx.content id = some k → idx.content id' = some k' →
          CompareEqual idx.cmpFuncs k k' → id = id') ∧
        ∀ id vals, KeyOk (oneColumn .string siIndexUnique).types vals → ∀ level, ∃ idx' code,
          compoundIndexApply idx [({ type := .chAdd, id := id, v := vals }, level)] =
            .ok (idx', code) ∧
          (code = siIndexDuplicateKey ↔ idx.Conflict id vals) ∧
          (code = siIndexDuplicateKey →
            idx'.sl = idx.sl ∧ idx'.ri = idx.ri ∧ idx'.length = idx.length) :=
  ⟨_, rfl, compoundIndex_unique rfl (by decide) (by decide)⟩

end Secondary
