import Mathlib.Data.List.Zip
import Secondary.Schema

/-!
# SchemaIndex — `SI_NewCompoundIndex` on the schemas that IDX.CREATE accepts

A schema may have any number of columns, but the loop that sets their comparators counts them in 8
bits.  With at most 255 columns the index has a comparator for each of them, takes tuples of all
columns and compares them column by column; with more, the loop does not end.
-/

namespace Secondary

open Lib

/-! ## Comparing values of a column -/

/-- The comparisons of the columns, one after the other. -/
def columnCompares (fs : List SIKeyCmpFunc) (k k' : SIMultiKey) : List (Exec Int) :=
  List.zipWith3 (fun f v w => f v w) fs k k'

/-- `SICmpMultiKey` returns the first comparison of a column that is not 0. -/
theorem siCmpMultiKey_columns {types : List SIType} {fs : List SIKeyCmpFunc}
    (hfs : CmpFuncsOf types fs) {k k' : SIMultiKey} (hk : List.Forall₂ OfType types k)
    (hk' : List.Forall₂ OfType types k') :
    ∃ cs : List Int, cs.length = types.length ∧ columnCompares fs k k' = cs.map .ok ∧
      siCmpMultiKey fs k k' = .ok ((cs.find? fun c => decide (c ≠ 0)).getD 0) := by
  induction hfs generalizing k k' with
  | nil =>
      cases hk
      cases hk'
      exact ⟨[], rfl, rfl, rfl⟩
  | cons hf _ ih =>
      obtain _ | ⟨hv, hk⟩ := hk
      obtain _ | ⟨hw, hk'⟩ := hk'
      obtain ⟨c, hc⟩ := cmpFunc_total hf hv.comparable hw.comparable
      obtain ⟨cs, hlen, hcolumns, hcmp⟩ := ih hk hk'
      refine ⟨c :: cs, by rw [List.length_cons, hlen, List.length_cons], ?_, ?_⟩
      · rw [columnCompares, List.zipWith3, hc, List.map_cons]
        exact congrArg _ hcolumns
      · by_cases hzero : c = 0
        · simp [siCmpMultiKey, hc, hzero, hcmp]
        · simp [siCmpMultiKey, hc, hzero]

/-! ## The loop over the columns -/

theorem findType_columnType {str : RedisModuleString} {t : SIType}
    (h : findType str siTypes typeEnums = some t) : ColumnType t := by
  have hmem : ∀ {words : List (Option (List UInt8))} {ts : List SIType},
      findType str words ts = some t → t ∈ (ts.take (words.takeWhile Option.isSome).length) := by
    intro words
    induction words with
    | nil => simp [findType]
    | cons word words ih =>
        intro ts h
        cases word with
        | none => simp [findType] at h
        | some word =>
            cases ts with
            | nil => simp [findType] at h
            | cons u ts =>
                rw [findType] at h
                split_ifs at h with hword
                · simp_all
                · simpa using Or.inr (ih h)
  have hall : ∀ u ∈ typeEnums.take (siTypes.takeWhile Option.isSome).length, ColumnType u := by
    decide
  exact hall t (hmem h)

/-- Every type that a schema can name has a comparator. -/
theorem parseColumns_types {named : Bool} :
    ∀ {n : Nat} {args : List RedisModuleString} {ps : List SIIndexProperty},
      parseColumns named n args = .ok (some ps) → ∀ p ∈ ps, ColumnType p.type
  | 0, _, ps, h => by
      obtain rfl : [] = ps := by simpa [parseColumns] using h
      simp
  | n + 1, args, ps, h => by
      obtain ⟨r, _, h⟩ := bind_eq_ok.1 h
      obtain ⟨str, _, h⟩ := bind_eq_ok.1 h
      cases htype : findType str siTypes typeEnums with
      | none => simp [htype] at h
      | some t =>
          simp only [htype] at h
          obtain ⟨rest, hrest, h⟩ := bind_eq_ok.1 h
          cases rest with
          | none => simp at h
          | some qs =>
              obtain rfl : _ = ps := by simpa using h
              exact List.forall_mem_cons.2 ⟨findType_columnType htype, parseColumns_types hrest⟩

theorem cmpFuncOf_columnType {t : SIType} (ht : ColumnType t) : ∃ f, cmpFuncOf t = .ok f := by
  cases t <;> first | exact ⟨_, rfl⟩ | exact absurd ht (by decide)

section Loop

variable {properties : List SIIndexProperty} (htypes : ∀ p ∈ properties, ColumnType p.type)

include htypes

/-- One round of the loop sets the comparator of a column. -/
theorem fillCmpFuncs_step {i : UInt8} (hi : i.toNat < properties.length) (fuel : Nat)
    (fs : List SIKeyCmpFunc) :
    ∃ f, fillCmpFuncs properties (fuel + 1) i fs =
      fillCmpFuncs properties fuel (i + 1) (fs ++ [f]) := by
  obtain ⟨f, hf⟩ := cmpFuncOf_columnType (htypes _ (List.getElem_mem hi))
  refine ⟨f, ?_⟩
  rw [fillCmpFuncs, if_pos hi, List.getElem?_eq_getElem hi, orFault_some, ok_bind, hf, ok_bind]

/-- An 8-bit counter never comes to the end of more than 255 columns. -/
theorem fillCmpFuncs_diverges (hlen : 255 < properties.length) :
    ∀ (fuel : Nat) (i : UInt8) (fs : List SIKeyCmpFunc),
      fillCmpFuncs properties fuel i fs = .error .diverges := by
  intro fuel
  induction fuel with
  | zero =>
      intro i fs
      rfl
  | succ fuel ih =>
      intro i fs
      have hi : i.toNat < properties.length := by
        have := i.toNat_lt
        omega
      obtain ⟨f, hstep⟩ := fillCmpFuncs_step htypes hi fuel fs
      rw [hstep, ih]

/-- With enough rounds left, the loop over at most 255 columns ends. -/
theorem fillCmpFuncs_ends (hlen : properties.length ≤ 255) :
    ∀ (fuel : Nat) (i : UInt8) (fs : List SIKeyCmpFunc), i.toNat ≤ properties.length →
      properties.length < fuel + i.toNat →
      ∃ fs', fillCmpFuncs properties fuel i fs = .ok fs' := by
  intro fuel
  induction fuel with
  | zero =>
      intro i fs hle hfuel
      omega
  | succ fuel ih =>
      intro i fs hle hfuel
      by_cases hi : i.toNat < properties.length
      · obtain ⟨f, hstep⟩ := fillCmpFuncs_step htypes hi fuel fs
        have hsucc : (i + 1).toNat = i.toNat + 1 := by
          rw [UInt8.toNat_add]
          have : (1 : UInt8).toNat = 1 := rfl
          omega
        rw [hstep]
        exact ih (i + 1) _ (by omega) (by omega)
      · exact ⟨fs, by rw [fillCmpFuncs, if_neg hi]⟩

end Loop

/-! ## The first tuple -/

/-- The first ADD compares nothing. -/
theorem applyAdd_first {idx : CompoundIndex} (hrep : Rep idx.sl []) {id : SIId}
    (hid : idx.ri.lookup id = none) {vals : List SIValue}
    (harity : vals.length = idx.numFuncs.toNat) (level : Level) :
    ∃ idx', compoundIndexApply idx [({ type := .chAdd, id := id, v := vals }, level)] =
      .ok (idx', siIndexOk) ∧ idx'.content id = some vals := by
  have hkey : siNewMultiKey vals vals.length = .ok vals := by
    have hlt := idx.numFuncs.toNat_lt
    have hmod : vals.length % 256 = vals.length := Nat.mod_eq_of_lt (by omega)
    simp [siNewMultiKey, hmod]
  have halloc : allocKey idx vals =
      .ok ({ idx with keys := idx.keys.alloc vals }, idx.keys.next) := by
    rw [allocKey, hkey, ok_bind]
  have hposition : Bucket.Position (fun _ => 0) ([] : List (Bucket KeyRef SIId)) :=
    .absent [] [] rfl (by simp) (by simp)
  have hnone : ∀ compare : KeyRef → KeyRef → Exec Int,
      Compares compare idx.keys.next (fun _ => 0) ([] : List (Bucket KeyRef SIId)) :=
    fun _ _ hb => absurd hb (by simp)
  have hfind : skiplistFind ({ idx with keys := idx.keys.alloc vals } : CompoundIndex).compare
      idx.sl idx.keys.next = .ok none :=
    hrep.find (hnone _) hposition
  obtain ⟨sl', hinsert, _⟩ := hrep.insert
    (hnone ({ idx with keys := idx.keys.alloc vals } : CompoundIndex).compare) hposition strcmp id
    level
  obtain ⟨idx', hidx'⟩ : ∃ idx' : CompoundIndex, idx' = { idx with
      keys := idx.keys.alloc vals
      sl := sl'
      ri := idx.ri.insert id idx.keys.next
      length := idx.length + 1 } := ⟨_, rfl⟩
  have hstore : storeEntry { idx with keys := idx.keys.alloc vals } id idx.keys.next level =
      .ok idx' := by
    rw [storeEntry, hinsert, ok_bind, hidx']
  -- Both kinds of index allocate the tuple and store it under the id.
  have hadd : compoundIndexApplyAdd idx id vals level = .ok (idx', siIndexOk) := by
    cases hu : idx.spec.isUnique with
    | true =>
        simp [compoundIndexApplyAdd, hu, halloc, hfind, replaceEntry, dropExisting, hid, hstore]
    | false =>
        simp [compoundIndexApplyAdd, hu, halloc, replaceEntry, dropExisting, hid, hstore]
  refine ⟨idx', ?_, ?_⟩
  · simp [compoundIndexApply, compoundIndexApplyChange, harity, hadd]
  · simp [CompoundIndex.content, hidx']

/-! ## Indexes of schemas -/

/-- The index has a comparator for each column, takes a tuple of all columns, and compares tuples
column by column. -/
structure CoversColumns (spec : SISpec) (idx : CompoundIndex) : Prop where
  comparators : CmpFuncsOf spec.types idx.cmpFuncs
  stores : ∀ (id : SIId) (vals : List SIValue) (level : Level),
    List.Forall₂ OfType spec.types vals →
      ∃ idx', compoundIndexApply idx [({ type := .chAdd, id := id, v := vals }, level)] =
        .ok (idx', siIndexOk) ∧ idx'.content id = some vals
  compares : ∀ k k' : SIMultiKey, List.Forall₂ OfType spec.types k →
    List.Forall₂ OfType spec.types k' →
      ∃ cs : List Int, cs.length = spec.numProps ∧
        columnCompares idx.cmpFuncs k k' = cs.map .ok ∧
        siCmpMultiKey idx.cmpFuncs k k' = .ok ((cs.find? fun c => decide (c ≠ 0)).getD 0)

theorem coversColumns_new {spec : SISpec} {idx : CompoundIndex}
    (h : siNewCompoundIndex spec = .ok idx) : CoversColumns spec idx := by
  obtain ⟨hinv, hspec, hcontent⟩ := indexInv_new h
  have hfs : CmpFuncsOf spec.types idx.cmpFuncs := hspec ▸ hinv.cmpFuncs
  refine ⟨hfs, ?_, ?_⟩
  · intro id vals level hvals
    have hid : idx.ri.lookup id = none := by
      rw [← Option.not_isSome_iff_eq_none]
      intro hsome
      obtain ⟨r, hl⟩ := Option.isSome_iff_exists.1 hsome
      obtain ⟨k, hk⟩ := hinv.exists_content.1 (Finmap.mem_of_lookup_eq_some hl)
      rw [hcontent] at hk
      cases hk
    refine applyAdd_first hinv.rep hid ?_ level
    rw [hinv.numFuncs, hspec, hvals.length_eq]
  · intro k k' hk hk'
    obtain ⟨cs, hlen, hcolumns, hcmp⟩ := siCmpMultiKey_columns hfs hk hk'
    refine ⟨cs, ?_, hcolumns, hcmp⟩
    rw [hlen, SISpec.types, List.length_map, SISpec.numProps]

/-- The types of a spec that was parsed have comparators. -/
theorem siParseSpec_types {argv : List RedisModuleString} {kind : SIIndexKind} {spec : SISpec}
    (h : siParseSpec argv = .ok (some (kind, spec))) : ∀ p ∈ spec.properties, ColumnType p.type := by
  obtain ⟨_, _, pos, _, hcols⟩ := siParseSpec_ok h
  exact parseColumns_types hcols

/-- A schema that was accepted gives an index that covers its columns exactly when there are at most
255 of them. -/
theorem siNewCompoundIndex_covers_iff {argv : List RedisModuleString} {kind : SIIndexKind}
    {spec : SISpec} (h : siParseSpec argv = .ok (some (kind, spec))) :
    (∃ idx, siNewCompoundIndex spec = .ok idx ∧ CoversColumns spec idx) ↔
      spec.numProps ≤ 255 := by
  have htypes := siParseSpec_types h
  constructor
  · rintro ⟨idx, hnew, _⟩
    obtain ⟨fs, hfill, _⟩ := bind_eq_ok.1 hnew
    exact fillCmpFuncs_length hfill
  · intro hlen
    obtain ⟨fs, hfill⟩ := fillCmpFuncs_ends htypes hlen 257 0 [] (Nat.zero_le _)
      (by simp only [SISpec.numProps] at hlen; simp; omega)
    have hnew : ∃ idx, siNewCompoundIndex spec = .ok idx :=
      ⟨_, by rw [siNewCompoundIndex, hfill, ok_bind]⟩
    obtain ⟨idx, hidx⟩ := hnew
    exact ⟨idx, hidx, coversColumns_new hidx⟩

/-- A schema of two columns. -/
theorem siNewCompoundIndex_covers_iff_two :
    ∃ spec, siParseSpec [ascii "IDX.CREATE", ascii "k", ascii "SCHEMA", ascii "STRING",
        ascii "FLOAT"] = .ok (some (.abstractIndex, spec)) ∧
      ((∃ idx, siNewCompoundIndex spec = .ok idx ∧ CoversColumns spec idx) ↔
        spec.numProps ≤ 255) :=
  ⟨_, rfl, siNewCompoundIndex_covers_iff (show siParseSpec [ascii "IDX.CREATE", ascii "k",
    ascii "SCHEMA", ascii "STRING", ascii "FLOAT"] = .ok (some (.abstractIndex, _)) from rfl)⟩

/-- IDX.CREATE with 256 columns is accepted, and making the index does not end in any number of
rounds. -/
theorem siNewCompoundIndex_256_diverges :
    ∃ spec, siParseSpec (ascii "IDX.CREATE" :: ascii "k" :: ascii "SCHEMA" ::
        List.replicate 256 (ascii "INT32")) = .ok (some (.abstractIndex, spec)) ∧
      (∀ fuel, fillCmpFuncs spec.properties fuel 0 [] = .error .diverges) ∧
      ¬∃ idx, siNewCompoundIndex spec = .ok idx ∧ CoversColumns spec idx := by
  have hparse : (siParseSpec (ascii "IDX.CREATE" :: ascii "k" :: ascii "SCHEMA" ::
      List.replicate 256 (ascii "INT32"))).map (Option.map fun r => (r.1, r.2.numProps)) =
      .ok (some (.abstractIndex, 256)) := by
    decide +kernel
  obtain ⟨r, hrun, hr⟩ : ∃ r, siParseSpec (ascii "IDX.CREATE" :: ascii "k" :: ascii "SCHEMA" ::
      List.replicate 256 (ascii "INT32")) = .ok r ∧
      r.map (fun r => (r.1, r.2.numProps)) = some (.abstractIndex, 256) := by
    cases h : siParseSpec (ascii "IDX.CREATE" :: ascii "k" :: ascii "SCHEMA" ::
        List.replicate 256 (ascii "INT32")) with
    | error e => rw [h] at hparse; cases hparse
    | ok r => rw [h] at hparse; exact ⟨r, rfl, Except.ok.inj hparse⟩
  obtain ⟨⟨kind, spec⟩, rfl, hspec⟩ := Option.map_eq_some_iff.1 hr
  obtain ⟨rfl, hlen⟩ := Prod.mk.inj hspec
  have hdiverges : ∀ fuel, fillCmpFuncs spec.properties fuel 0 [] = .error .diverges := by
    intro fuel
    refine fillCmpFuncs_diverges (siParseSpec_types hrun) ?_ fuel 0 []
    have : spec.properties.length = 256 := hlen
    omega
  refine ⟨spec, hrun, hdiverges, ?_⟩
  rintro ⟨idx, hnew, _⟩
  rw [siNewCompoundIndex, hdiverges] at hnew
  cases hnew

end Secondary
