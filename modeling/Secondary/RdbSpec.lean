import Secondary.IndexMap
import Secondary.Rdb
import Secondary.TraverseSpec

/-!
# RdbSpec — loading what was saved

Every piece that is saved is read back by its loader (`Reads`), a column without a name as one with
an empty name.  The records are read back as they were written; there are as many as the traversal
makes calls, and the loader takes as many as the index has ids.
-/

namespace Secondary

open Lib

/-! ## Values -/

theorem reads_loadUnsigned (n : Nat) : Reads loadUnsigned n [.unsigned n] :=
  fun _ => rfl

theorem reads_loadSigned (n : Int) : Reads loadSigned n [.signed n] :=
  fun _ => rfl

theorem reads_loadDouble (bits : UInt64) : Reads loadDouble bits [.double bits] :=
  fun _ => rfl

theorem reads_loadStringBuffer (bytes : List UInt8) :
    Reads loadStringBuffer bytes [.stringBuffer bytes] :=
  fun _ => rfl

/-- A `bool` goes through `uint64_t`. -/
theorem ofInt_toNat_emod (b : Int32) :
    Int32.ofInt ((b.toInt % 2 ^ 64).toNat : Nat) = b := by
  have hlow := b.le_toInt
  have hhigh := b.toInt_lt
  have hcast : (((b.toInt % 2 ^ 64).toNat : Nat) : Int) = b.toInt % 2 ^ 64 :=
    Int.toNat_of_nonneg (Int.emod_nonneg _ (by decide))
  rw [hcast, Int32.ofInt_eq_iff_bmod_eq_toInt]
  simp only [Int.bmod]
  omega

/-- A value that a record can hold.  A FLOAT is made of a `double` wherever one is made. -/
def SIValue.Recordable : SIValue → Prop
  | .float f => ∃ d : UInt64, f = UInt32.ofNat (narrow d.toNat)
  | .inf => False
  | .negInf => False
  | _ => True

/-- A `float` goes through `double`. -/
theorem narrow_widen_float {f : UInt32} (h : (SIValue.float f).Recordable) :
    UInt32.ofNat (narrow (UInt64.ofNat (widen f.toNat)).toNat) = f := by
  obtain ⟨d, rfl⟩ := h
  have hfloat : (UInt32.ofNat (narrow d.toNat)).toNat = narrow d.toNat :=
    UInt32.toNat_ofNat_of_lt' (narrow_lt d.toNat_lt)
  have hdouble : (UInt64.ofNat (widen (narrow d.toNat))).toNat = widen (narrow d.toNat) :=
    UInt64.toNat_ofNat_of_lt' (widen_lt (narrow_lt d.toNat_lt))
  rw [hfloat, hdouble, narrow_widen_narrow]

/-- Every number is made of the `double` it is equal to. -/
theorem recordable_float {f : UInt32} (h : place32 f ≠ none) : (SIValue.float f).Recordable := by
  have hlt : widen f.toNat < UInt64.size := widen_lt f.toNat_lt
  have hnum : f.toNat % 2 ^ 31 ≤ 255 * 2 ^ 23 := by
    by_contra hlarge
    refine h ?_
    have hnan : (2 ^ 8 - 1) * 2 ^ 23 < f.toNat % 2 ^ (8 + 23) := by omega
    simp only [place32, floatPlace]
    rw [if_pos hnan]
  refine ⟨UInt64.ofNat (widen f.toNat), ?_⟩
  rw [UInt64.toNat_ofNat_of_lt' hlt, narrow_widen hnum, UInt32.ofNat_toNat]

theorem recordable_of_valueOk {t : SIType} (ht : ColumnType t) {v : SIValue} (hv : ValueOk t v) :
    v.Recordable := by
  cases v with
  | float f =>
      rcases hv with hv | hv
      · cases hv
      · exact recordable_float hv.2
  | inf =>
      rcases hv with hv | hv
      · cases hv
      · exact absurd hv.1.symm ht.2.1
  | negInf =>
      rcases hv with hv | hv
      · cases hv
      · exact absurd hv.1.symm ht.2.2
  | _ => trivial

/-- A value is read back as it was. -/
theorem reads_readValue {v : SIValue} (hv : v.Recordable) : Reads readValue v (writeValue v) := by
  have hmember : ∀ {items : List RdbItem}, Reads (readMember (some v.type)) v items →
      Reads readValue v (.unsigned v.type.code :: items) := by
    intro items h
    refine (reads_loadUnsigned v.type.code).bind ?_
    rwa [SIType.ofCode_code]
  refine hmember ?_
  cases v with
  | null => exact Reads.pure _
  | string s => exact (reads_loadStringBuffer s).map rfl
  | int32 i => exact (reads_loadSigned i.toInt).map (congrArg SIValue.int32 i.ofInt_toInt)
  | int64 i => exact (reads_loadSigned i.toInt).map (congrArg SIValue.int64 i.ofInt_toInt)
  | uint u => exact (reads_loadUnsigned u.toNat).map (congrArg SIValue.uint UInt64.ofNat_toNat)
  | bool b => exact (reads_loadUnsigned _).map (congrArg SIValue.bool (ofInt_toNat_emod b))
  | float f => exact (reads_loadDouble _).map (congrArg SIValue.float (narrow_widen_float hv))
  | double d => exact (reads_loadDouble d).map rfl
  | time i => exact (reads_loadSigned i.toInt).map (congrArg SIValue.time i.ofInt_toInt)
  | inf => exact hv.elim
  | negInf => exact hv.elim

/-! ## Specs -/

/-- The column that is loaded for a saved one: the flag decides whether it has a name. -/
def SIIndexProperty.loaded (named : Bool) (p : SIIndexProperty) : SIIndexProperty :=
  { p with name := if named then some (p.name.getD (cString [])) else none }

def SISpec.loaded (spec : SISpec) : SISpec :=
  { spec with properties := spec.properties.map (SIIndexProperty.loaded (isNamed spec.flags)) }

theorem reads_loadName (named : Bool) (p : SIIndexProperty) :
    Reads (loadName named) (p.loaded named).name (saveName named p) := by
  cases named with
  | false => exact Reads.pure _
  | true =>
      refine (reads_loadStringBuffer _).map ?_
      cases hp : p.name with
      | none => simp [SIIndexProperty.loaded, hp]
      | some s => simp [SIIndexProperty.loaded, hp, cString_bytes]

theorem reads_loadProperty (named : Bool) (p : SIIndexProperty) :
    Reads (loadProperty named) (p.loaded named) (saveProperty named p) := by
  have htype : ((p.type.code : Int) % 2 ^ 32).toNat = p.type.code := by
    cases p.type <;> rfl
  have hcode : orFault (SIType.ofCode ((p.type.code : Int) % 2 ^ 32).toNat) Fault.exit =
      .ok p.type := by
    rw [htype, SIType.ofCode_code]
    rfl
  have hflags : (Int32.ofInt p.flags.toInt32.toInt).toUInt32 = p.flags := by simp
  refine (reads_loadName named p).bind ((reads_loadSigned _).bind ((reads_loadSigned _).bind
    ((Reads.lift hcode).map ?_)))
  rw [hflags]
  rfl

theorem reads_loadSpec (spec : SISpec) : Reads loadSpec spec.loaded (saveSpec spec) := by
  have hmany : Reads (readMany (loadProperty (isNamed spec.flags)) spec.numProps)
      (spec.properties.map (SIIndexProperty.loaded (isNamed spec.flags)))
      (spec.properties.flatMap (saveProperty (isNamed spec.flags))) := by
    have hall : List.Forall₂ (Reads (loadProperty (isNamed spec.flags)))
        (spec.properties.map (SIIndexProperty.loaded (isNamed spec.flags)))
        (spec.properties.map (saveProperty (isNamed spec.flags))) := by
      rw [List.forall₂_map_left_iff, List.forall₂_map_right_iff, List.forall₂_same]
      exact fun p _ => reads_loadProperty _ p
    have := Reads.many hall
    rwa [List.length_map] at this
  refine (reads_loadUnsigned _).bind ((reads_loadUnsigned _).bind ?_)
  rw [UInt32.ofNat_toNat]
  exact hmany.map rfl

/-- A spec is loaded as it was saved when its columns have names where the flag says so. -/
theorem loaded_eq_iff {spec : SISpec} :
    spec.loaded = spec ↔ ∀ p ∈ spec.properties, p.name.isSome = isNamed spec.flags := by
  have hprop : ∀ p : SIIndexProperty, p.loaded (isNamed spec.flags) = p ↔
      p.name.isSome = isNamed spec.flags := by
    rintro ⟨type, flags, name⟩
    cases isNamed spec.flags <;> cases name <;> simp [SIIndexProperty.loaded]
  constructor
  · intro h p hp
    have hmap : spec.properties.map (SIIndexProperty.loaded (isNamed spec.flags)) =
        spec.properties := congrArg SISpec.properties h
    refine (hprop p).1 (List.map_inj_left.1 (hmap.trans (List.map_id _).symm) p hp)
  · intro h
    have hmap : spec.properties.map (SIIndexProperty.loaded (isNamed spec.flags)) =
        spec.properties := by
      conv_rhs => rw [← List.map_id spec.properties]
      exact List.map_congr_left fun p hp => (hprop p).2 (h p hp)
    rw [SISpec.loaded, hmap]

/-! ## Sequences of specs and values -/

inductive RdbKind
  | spec
  | value

inductive RdbPiece
  | spec (spec : SISpec)
  | value (v : SIValue)

namespace RdbPiece

def kind : RdbPiece → RdbKind
  | .spec _ => .spec
  | .value _ => .value

def save : RdbPiece → List RdbItem
  | .spec s => saveSpec s
  | .value v => writeValue v

/-- A spec as it is made (columns have names where its flag says so), or a value of a record. -/
def Saveable : RdbPiece → Prop
  | .spec s => ∀ p ∈ s.properties, p.name.isSome = isNamed s.flags
  | .value v => v.Recordable

end RdbPiece

def RdbKind.load : RdbKind → RdbReader RdbPiece
  | .spec => loadSpec >>= fun spec => pure (.spec spec)
  | .value => readValue >>= fun v => pure (.value v)

theorem reads_saveSpec {spec : SISpec} (h : ∀ p ∈ spec.properties, p.name.isSome = isNamed spec.flags) :
    Reads loadSpec spec (saveSpec spec) := by
  have hread := reads_loadSpec spec
  rwa [loaded_eq_iff.2 h] at hread

theorem reads_load {piece : RdbPiece} (h : piece.Saveable) :
    Reads piece.kind.load piece piece.save := by
  cases piece with
  | spec spec => exact (reads_saveSpec h).map rfl
  | value v => exact (reads_readValue h).map rfl

/-- Specs and values are read back as they were saved, each from its own items, and so is every
sequence of them. -/
theorem rdbPieces_readBack {pieces : List RdbPiece} (h : ∀ piece ∈ pieces, piece.Saveable) :
    (∀ spec, .spec spec ∈ pieces → Reads loadSpec spec (saveSpec spec)) ∧
      (∀ v, .value v ∈ pieces → Reads readValue v (writeValue v)) ∧
      Reads (readEach (pieces.map fun piece => piece.kind.load)) pieces
        (pieces.flatMap RdbPiece.save) :=
  ⟨fun _ hmem => reads_saveSpec (h _ hmem), fun _ hmem => reads_readValue (h _ hmem),
    Reads.each fun piece hmem => reads_load (h piece hmem)⟩

/-- A named spec, a string with a NUL, a NULL, a negative truth value and a NaN. -/
def fivePieces : List RdbPiece :=
  [.spec { properties := [{ type := .string, flags := 0, name := some (cString [110]) }], flags := 1 },
    .value (.string [97, 0, 98]), .value .null, .value (.bool (-1)), .value (.float 0x7FC00000)]

theorem rdbPieces_readBack_five :
    (∀ spec, .spec spec ∈ fivePieces → Reads loadSpec spec (saveSpec spec)) ∧
      (∀ v, .value v ∈ fivePieces → Reads readValue v (writeValue v)) ∧
      Reads (readEach (fivePieces.map fun piece => piece.kind.load)) fivePieces
        (fivePieces.flatMap RdbPiece.save) := by
  refine rdbPieces_readBack ?_
  simp only [fivePieces, List.forall_mem_cons]
  refine ⟨?_, trivial, trivial, trivial, ⟨0x7FF8000000000000, by decide⟩, by simp⟩
  intro p hp
  obtain rfl := List.mem_singleton.1 hp
  decide

/-! ## Records -/

/-- What is saved for an id and its tuple. -/
def recordItems (record : SIId × SIMultiKey) : List RdbItem :=
  .stringBuffer record.1.bytes :: record.2.flatMap writeValue

theorem saveValues_eq (mk : SIMultiKey) : saveValues mk.length mk = .ok (mk.flatMap writeValue) := by
  induction mk with
  | nil => rfl
  | cons v mk ih => simp [saveValues, ih]

/-- The record that a call of the visitor saves. -/
def recordOf (idx : CompoundIndex) (visit : SIId × Option KeyRef) : SIId × SIMultiKey :=
  (visit.1, (visit.2.bind idx.keys.cell).getD [])

theorem saveRecords_eq {idx : CompoundIndex} {n : Nat} {visits : List (SIId × Option KeyRef)}
    (h : ∀ visit ∈ visits, ∃ r k, visit.2 = some r ∧ idx.keys.cell r = some k ∧ k.length = n) :
    saveRecords idx n visits = .ok ((visits.map (recordOf idx)).flatMap recordItems) := by
  induction visits with
  | nil => rfl
  | cons visit visits ih =>
      obtain ⟨r, k, hr, hk, rfl⟩ := h visit (by simp)
      have hrest := ih fun v hv => h v (List.mem_cons_of_mem _ hv)
      have hvisit : rdbVisitor idx k.length visit.1 visit.2 =
          .ok (recordItems (recordOf idx visit)) := by
        simp [rdbVisitor, hr, readKey_of_cell hk, saveValues_eq, recordItems, recordOf, hk]
      simp [saveRecords, hvisit, hrest]

theorem reads_loadRecord {types : List SIType} (htypes : ∀ t ∈ types, ColumnType t)
    {record : SIId × SIMultiKey} (hk : KeyOk types record.2) :
    Reads (loadRecord record.2.length) record (recordItems record) := by
  have hall : List.Forall₂ (Reads readValue) record.2 (record.2.map writeValue) := by
    rw [List.forall₂_map_right_iff, List.forall₂_same]
    intro v hv
    obtain ⟨i, hi, rfl⟩ := List.getElem_of_mem hv
    have hi' : i < types.length := hk.length_eq ▸ hi
    exact reads_readValue
      (recordable_of_valueOk (htypes _ (List.getElem_mem hi')) (hk.get hi' hi))
  refine (reads_loadStringBuffer _).bind ((Reads.many hall).map ?_)
  rw [cString_bytes]

theorem recordItems_ne_nil (record : SIId × SIMultiKey) : recordItems record ≠ [] := by
  simp [recordItems]

section Load

variable {spec : SISpec} {fs : List SIKeyCmpFunc}

/-- A loop that loads `n` of the records leaves the others. -/
theorem rest_of_loadRecords {draw : Nat → Level} {numProps : Nat} :
    ∀ {n : Nat} {records : List (SIId × SIMultiKey)} {idx idx' : CompoundIndex}
      {rest : List RdbItem},
      (∀ record ∈ records, Reads (loadRecord numProps) record (recordItems record)) →
      n ≤ records.length →
      StateT.run (loadRecords draw numProps n idx) (records.flatMap recordItems) =
        .ok (idx', rest) →
      rest = (records.drop n).flatMap recordItems := by
  intro n
  induction n with
  | zero =>
      intro records idx idx' rest _ _ hrun
      cases hrun
      rfl
  | succ n ih =>
      intro records idx idx' rest hreads hn hrun
      cases records with
      | nil => simp at hn
      | cons record records =>
          rw [loadRecords, List.flatMap_cons, (hreads record (by simp)).run_bind] at hrun
          cases happly : compoundIndexApply idx
              [({ type := .chAdd, id := record.1, v := record.2 }, draw n)] with
          | error e =>
              rw [StateT.run_bind, happly] at hrun
              cases hrun
          | ok r =>
              rw [← List.nil_append (records.flatMap recordItems),
                (Reads.lift happly).run_bind] at hrun
              exact ih (fun r hr => hreads r (List.mem_cons_of_mem _ hr))
                (Nat.le_of_succ_le_succ hn) hrun

/-- The map of records that were applied one after the other. -/
def recordMap (records : List (SIId × SIMultiKey)) : TupleMap :=
  records.foldl (fun m record => m.insert record.1 record.2) ∅

theorem recordMap_concat (records : List (SIId × SIMultiKey)) (record : SIId × SIMultiKey) :
    recordMap (records ++ [record]) = (recordMap records).insert record.1 record.2 := by
  simp [recordMap]

theorem lookup_recordMap {records : List (SIId × SIMultiKey)}
    (h : (records.map Prod.fst).Nodup) {id : SIId} {k : SIMultiKey} :
    (recordMap records).lookup id = some k ↔ (id, k) ∈ records := by
  induction records using List.reverseRecOn with
  | nil => simp [recordMap]
  | append_singleton records record ih =>
      rw [List.map_append, List.nodup_append] at h
      rw [recordMap_concat]
      by_cases hid : id = record.1
      · subst hid
        have hno : (record.1, k) ∉ records := fun hmem =>
          h.2.2 _ (List.mem_map_of_mem hmem) _ (by simp) rfl
        rw [Finmap.lookup_insert, List.mem_append, List.mem_singleton, Option.some.injEq]
        constructor
        · rintro rfl
          exact Or.inr rfl
        · rintro (hmem | heq)
          · exact absurd hmem hno
          · rw [← heq]
      · have hne : (id, k) ≠ record := fun heq => hid (congrArg Prod.fst heq)
        rw [Finmap.lookup_insert_of_ne _ hid, ih h.1, List.mem_append, List.mem_singleton]
        simp [hne]

/-- An ADD for an id that is not there. -/
theorem Stands.add {idx : CompoundIndex} {m : TupleMap} (h : Stands spec fs idx m) {id : SIId}
    {k : SIMultiKey} (hk : KeyOk spec.types k) (hid : id ∉ m)
    (hfree : spec.isUnique = true → ¬Taken fs m id k) (level : Level) :
    ∃ idx' code,
      compoundIndexApply idx [({ type := .chAdd, id := id, v := k }, level)] = .ok (idx', code) ∧
      Stands spec fs idx' (m.insert id k) := by
  have hkeys : spec.isUnique = true ∨
      KeysNotShared idx [({ type := .chAdd, id := id, v := k }, level)] := by
    refine Or.inr ⟨fun _ => keyNotShared_of_absent ?_, fun _ _ _ _ => trivial⟩
    exact Finmap.lookup_eq_none.2 fun hmem => hid ((h.represents.ids id).1 hmem)
  obtain ⟨idx', code, hrun, hstands⟩ := h.apply (by simpa [Typed, SIChange.Typed] using fun _ => hk)
    hkeys
  refine ⟨idx', code, hrun, ?_⟩
  have hfree' : ¬(spec.isUnique = true ∧ Taken fs m id k) := fun h => hfree h.1 h.2
  simpa [applyToMap, changeMap, hk.length_eq, hfree'] using hstands

/-- Two records of different ids with tuples that differ. -/
def Apart (fs : List SIKeyCmpFunc) (a b : SIId × SIMultiKey) : Prop :=
  a.1 ≠ b.1 ∧ ¬CompareEqual fs a.2 b.2

/-- Records that are apart are all stored. -/
theorem loadRecords_spec (draw : Nat → Level) (htypes : ∀ t ∈ spec.types, ColumnType t) :
    ∀ (records done : List (SIId × SIMultiKey)) {idx : CompoundIndex},
      (done ++ records).Pairwise (Apart fs) → (∀ record ∈ records, KeyOk spec.types record.2) →
      Stands spec fs idx (recordMap done) →
      ∃ idx', StateT.run (loadRecords draw spec.numProps records.length idx)
          (records.flatMap recordItems) = .ok (idx', []) ∧
        Stands spec fs idx' (recordMap (done ++ records)) := by
  intro records
  induction records with
  | nil =>
      intro done idx _ _ hstands
      exact ⟨idx, rfl, by simpa using hstands⟩
  | cons record records ih =>
      intro done idx hapart hok hstands
      have hk := hok record (by simp)
      -- The record is new and free, so it is added to those that are done.
      have hids : (done.map Prod.fst).Nodup :=
        List.pairwise_map.2 ((List.pairwise_append.1 hapart).1.imp And.left)
      have hdone : ∀ id k, (recordMap done).lookup id = some k → Apart fs (id, k) record :=
        fun id k hl => (List.pairwise_append.1 hapart).2.2 _ ((lookup_recordMap hids).1 hl) _
          (by simp)
      have hnew : record.1 ∉ recordMap done := by
        rw [Finmap.mem_iff]
        rintro ⟨k, hl⟩
        exact (hdone _ k hl).1 rfl
      have hfree : ¬Taken fs (recordMap done) record.1 record.2 := by
        rintro ⟨id, k, _, hl, hequal⟩
        exact (hdone id k hl).2 hequal
      obtain ⟨idx₁, code, happly, hstands₁⟩ :=
        hstands.add hk hnew (fun _ => hfree) (draw records.length)
      rw [← recordMap_concat] at hstands₁
      obtain ⟨idx', hrun, hstands'⟩ := ih (done ++ [record]) (by simpa using hapart)
        (fun r hr => hok r (List.mem_cons_of_mem _ hr)) hstands₁
      refine ⟨idx', ?_, by simpa using hstands'⟩
      -- What is read is its items, and the rest is left for the others.
      have hreads := reads_loadRecord htypes hk
      have hlen : record.2.length = spec.numProps := by
        rw [hk.length_eq, SISpec.types, List.length_map, SISpec.numProps]
      rw [hlen] at hreads
      rw [List.length_cons, loadRecords, List.flatMap_cons, hreads.run_bind,
        ← List.nil_append (records.flatMap recordItems), (Reads.lift happly).run_bind]
      exact hrun

end Load

/-! ## Round trips -/

theorem columnType_of_cmpFuncs {types : List SIType} {fs : List SIKeyCmpFunc}
    (h : CmpFuncsOf types fs) : ∀ t ∈ types, ColumnType t := by
  induction h with
  | nil => simp
  | cons hf _ ih =>
      refine List.forall_mem_cons.2 ⟨?_, ih⟩
      rename_i t _ _ _ _
      cases t <;> first | decide | cases hf

/-- The records that are saved. -/
def savedRecords (idx : CompoundIndex) (bs : List (Bucket KeyRef SIId)) :
    List (SIId × SIMultiKey) :=
  (visits bs).map (recordOf idx)

namespace IndexInv

variable {idx : CompoundIndex} {bs : List (Bucket KeyRef SIId)}

/-- What the traversal hands to the visitor. -/
theorem mem_visits (h : IndexInv idx bs) {visit : SIId × Option KeyRef} (hv : visit ∈ visits bs) :
    ∃ b ∈ bs, visit.1 ∈ b.vals ∧ ∃ k, visit.2 = some b.key ∧ idx.keys.cell b.key = some k ∧
      KeyOk idx.spec.types k := by
  simp only [visits, visitsOf, List.mem_flatMap, List.mem_map] at hv
  obtain ⟨b, hb, _, _, id, hid, rfl⟩ := hv
  obtain ⟨k, hk, hok⟩ := h.key_live hb
  exact ⟨b, hb, hid, k, rfl, hk, hok⟩

theorem savedRecords_ok (h : IndexInv idx bs) :
    ∀ record ∈ savedRecords idx bs, KeyOk idx.spec.types record.2 := by
  intro record hr
  obtain ⟨visit, hv, rfl⟩ := List.mem_map.1 hr
  obtain ⟨b, _, _, k, hkey, hk, hok⟩ := h.mem_visits hv
  simpa [recordOf, hkey, hk] using hok

/-- Where every node holds one id, the records are the ids with their own tuples. -/
theorem mem_savedRecords (h : IndexInv idx bs) (hsingle : ∀ b ∈ bs, ∃ id, b.vals = [id])
    {id : SIId} {k : SIMultiKey} : (id, k) ∈ savedRecords idx bs ↔ idx.content id = some k := by
  have hown : ∀ b ∈ bs, id ∈ b.vals → idx.content id = idx.keys.cell b.key := by
    intro b hb hid
    obtain ⟨x, hx⟩ := hsingle b hb
    obtain ⟨y, hy, hl⟩ := h.owner b hb
    rw [hx, List.mem_singleton] at hid hy
    subst hid hy
    simp [CompoundIndex.content, hl]
  constructor
  · intro hmem
    obtain ⟨visit, hv, heq⟩ := List.mem_map.1 hmem
    obtain ⟨b, hb, hid, k', hkey, hk, _⟩ := h.mem_visits hv
    obtain ⟨rfl, rfl⟩ : visit.1 = id ∧ k' = k := by simpa [recordOf, hkey, hk] using heq
    rw [hown b hb hid, hk]
  · intro hk
    obtain ⟨b, hb, hid⟩ := h.exists_bucket hk
    refine List.mem_map.2 ⟨(id, some b.key), ?_, ?_⟩
    · simp only [visits, visitsOf, List.mem_flatMap, List.mem_map]
      exact ⟨b, hb, id, hid, id, hid, rfl⟩
    · simp [recordOf, ← hown b hb hid, hk]

theorem ids_savedRecords (idx : CompoundIndex) (hsingle : ∀ b ∈ bs, ∃ id, b.vals = [id]) :
    (savedRecords idx bs).map Prod.fst = Bucket.allVals bs := by
  rw [savedRecords, visits_of_single hsingle, List.map_map, List.map_flatMap]
  refine List.flatMap_congr fun b _ => ?_
  simp [recordOf, Function.comp_def]

end IndexInv

/-- The head of a saved index is read back; the records come after it. -/
theorem run_redisIndexRdbLoad (draw : Nat → Level) (r : RedisIndex) (rest : List RdbItem) :
    StateT.run (redisIndexRdbLoad draw 0)
        (.unsigned r.kind.code :: .unsigned r.flags.toNat :: (saveSpec r.spec ++ rest)) =
      StateT.run (loadIndex draw r.spec.loaded >>= fun idx =>
        pure (some { kind := r.kind, flags := r.flags, spec := r.spec.loaded, idx := idx }))
        rest := by
  rw [redisIndexRdbLoad, if_neg (by decide), ← List.singleton_append,
    (reads_loadUnsigned r.kind.code).run_bind, ← List.singleton_append,
    (reads_loadUnsigned r.flags.toNat).run_bind, (reads_loadSpec r.spec).run_bind,
    SIIndexKind.ofCode_code, UInt32.ofNat_toNat]

theorem run_loadIndex {draw : Nat → Level} {spec : SISpec} {idx₀ : CompoundIndex}
    (hnew : siNewCompoundIndex spec = .ok idx₀) (n : Nat) (rest : List RdbItem) :
    StateT.run (loadIndex draw spec) (.unsigned n :: rest) =
      StateT.run (loadRecords draw spec.numProps n idx₀) rest := by
  rw [loadIndex, ← List.nil_append (_ :: _), (Reads.lift hnew).run_bind,
    ← List.singleton_append, (reads_loadUnsigned n).run_bind]

/-- What is saved is loaded to the last item, and gives the index that was saved. -/
def RoundTrips (draw : Nat → Level) (r : RedisIndex) : Prop :=
  ∃ io r', redisIndexRdbSave r = .ok io ∧
    StateT.run (redisIndexRdbLoad draw 0) io = .ok (some r', []) ∧
    r'.kind = r.kind ∧ r'.flags = r.flags ∧ r'.spec = r.spec ∧
    compoundIndexLen r'.idx = compoundIndexLen r.idx ∧
    ∀ id, Option.Rel (CompareEqual r.idx.cmpFuncs) (r'.idx.content id) (r.idx.content id)

section RoundTrip

variable {r : RedisIndex} {bs : List (Bucket KeyRef SIId)} {draw : Nat → Level}

theorem redisIndexRdbSave_spec (h : IndexInv r.idx bs) (hspec : r.idx.spec = r.spec) :
    redisIndexRdbSave r =
      .ok (.unsigned r.kind.code :: .unsigned r.flags.toNat :: (saveSpec r.spec ++
        .unsigned r.idx.length :: (savedRecords r.idx bs).flatMap recordItems)) := by
  have hrecords : saveRecords r.idx r.spec.numProps (visits bs) =
      .ok ((savedRecords r.idx bs).flatMap recordItems) := by
    refine saveRecords_eq fun visit hv => ?_
    obtain ⟨b, _, _, k, hkey, hk, hok⟩ := h.mem_visits hv
    refine ⟨b.key, k, hkey, hk, ?_⟩
    rw [hok.length_eq, hspec, SISpec.types, List.length_map, SISpec.numProps]
  simp [redisIndexRdbSave, saveIndex, compoundIndexTraverse_spec h.rep h.nonempty, hrecords,
    compoundIndexLen]

/-- The loader stops at the last item only if there are as many records as ids. -/
theorem single_of_roundTrips (h : IndexInv r.idx bs) (hspec : r.idx.spec = r.spec)
    {idx₀ : CompoundIndex} (hnew : siNewCompoundIndex r.spec = .ok idx₀)
    (hround : RoundTrips draw r) :
    r.spec.loaded = r.spec ∧ ∀ b ∈ bs, ∃ id, b.vals = [id] := by
  obtain ⟨io, r', hsave, hload, _, _, hspec', _⟩ := hround
  rw [redisIndexRdbSave_spec h hspec, Except.ok.injEq] at hsave
  subst hsave
  rw [run_redisIndexRdbLoad, StateT.run_bind] at hload
  obtain ⟨⟨idx', rest⟩, hrun, hpure⟩ := bind_eq_ok.1 hload
  obtain ⟨hr', rfl⟩ := Prod.mk.inj (Except.ok.inj hpure)
  rw [← Option.some.inj hr'] at hspec'
  have hsame : r.spec.loaded = r.spec := hspec'
  refine ⟨hsame, ?_⟩
  rw [hsame, run_loadIndex hnew] at hrun
  obtain ⟨hle, heq⟩ := length_visits bs h.nonempty
  have hlen : (savedRecords r.idx bs).length = (visits bs).length := List.length_map _
  have hreads : ∀ record ∈ savedRecords r.idx bs,
      Reads (loadRecord r.spec.numProps) record (recordItems record) := by
    intro record hr
    have hok := h.savedRecords_ok record hr
    have hreads := reads_loadRecord (columnType_of_cmpFuncs h.cmpFuncs) hok
    rwa [hok.length_eq, hspec, SISpec.types, List.length_map] at hreads
  have hrest := rest_of_loadRecords hreads (by rw [hlen, h.length]; exact hle) hrun
  have hdrop : (savedRecords r.idx bs).drop r.idx.length = [] := by
    rw [List.eq_nil_iff_forall_not_mem]
    intro record hr
    exact recordItems_ne_nil record (List.flatMap_eq_nil_iff.1 hrest.symm record hr)
  refine heq (le_antisymm ?_ hle)
  rw [← hlen, ← h.length]
  exact List.drop_eq_nil_iff.1 hdrop

/-- One record for each id is loaded.  The records, the index that was saved and the one that is
loaded stand for the same tuples. -/
theorem loads_of_single (h : IndexInv r.idx bs) (hspec : r.idx.spec = r.spec)
    {idx₀ : CompoundIndex} (hnew : siNewCompoundIndex r.spec = .ok idx₀)
    (hfs : r.idx.cmpFuncs = idx₀.cmpFuncs) (hsame : r.spec.loaded = r.spec)
    (hsingle : ∀ b ∈ bs, ∃ id, b.vals = [id]) (draw : Nat → Level) :
    ∃ io idx' m, redisIndexRdbSave r = .ok io ∧
      StateT.run (redisIndexRdbLoad draw 0) io = .ok (some { r with idx := idx' }, []) ∧
      (∀ id, m.lookup id = r.idx.content id) ∧
      Stands r.spec idx₀.cmpFuncs r.idx m ∧ Stands r.spec idx₀.cmpFuncs idx' m := by
  -- One record for each id, as every node has one.
  have hids : ((savedRecords r.idx bs).map Prod.fst).Nodup := by
    rw [IndexInv.ids_savedRecords r.idx hsingle]
    exact h.nodup
  have hlen : (savedRecords r.idx bs).length = r.idx.length := by
    rw [h.length, ← IndexInv.ids_savedRecords r.idx hsingle, List.length_map]
  have hmem : ∀ id k, (recordMap (savedRecords r.idx bs)).lookup id = some k ↔
      r.idx.content id = some k := fun id k =>
    (lookup_recordMap hids).trans (h.mem_savedRecords hsingle)
  -- Index and records stand for one map.
  have hsaved : Stands r.spec idx₀.cmpFuncs r.idx (recordMap (savedRecords r.idx bs)) := by
    refine ⟨⟨hspec, bs, h⟩, hfs, fun id k hk => h.content_ok ((hmem id k).1 hk), fun id => ?_⟩
    rw [Option.ext (hmem id)]
    cases hk : r.idx.content id with
    | none => exact .none
    | some k => exact .some (CompareEqual.refl h.cmpFuncs (h.content_ok hk))
  have hapart : (savedRecords r.idx bs).Pairwise (Apart idx₀.cmpFuncs) := by
    have hno := h.single_iff.2 hsingle
    refine (List.pairwise_map.1 hids).imp_of_mem fun {a b} ha hb hne => ⟨hne, fun hequal => ?_⟩
    rw [← hfs] at hequal
    exact hne (hno a.1 b.1 a.2 b.2 ((h.mem_savedRecords hsingle).1 ha)
      ((h.mem_savedRecords hsingle).1 hb) hequal)
  have hok : ∀ record ∈ savedRecords r.idx bs, KeyOk r.spec.types record.2 :=
    hspec ▸ h.savedRecords_ok
  -- Loading them leaves an index that stands for it too.
  obtain ⟨idx', hrun, hloaded⟩ := loadRecords_spec draw
    (hspec ▸ columnType_of_cmpFuncs h.cmpFuncs) (savedRecords r.idx bs) [] hapart hok
    (stands_new hnew)
  rw [List.nil_append] at hloaded
  refine ⟨_, idx', _, redisIndexRdbSave_spec h hspec, ?_, fun id => Option.ext (hmem id), hsaved,
    hloaded⟩
  rw [run_redisIndexRdbLoad, StateT.run_bind, hsame, run_loadIndex hnew, ← hlen, hrun]
  rfl

/-- One record for each id is loaded into the index that was saved. -/
theorem roundTrips_of_single (h : IndexInv r.idx bs) (hspec : r.idx.spec = r.spec)
    {idx₀ : CompoundIndex} (hnew : siNewCompoundIndex r.spec = .ok idx₀)
    (hfs : r.idx.cmpFuncs = idx₀.cmpFuncs) (hsame : r.spec.loaded = r.spec)
    (hsingle : ∀ b ∈ bs, ∃ id, b.vals = [id]) : RoundTrips draw r := by
  obtain ⟨io, idx', m, hsave, hload, hm, hsaved, hloaded⟩ :=
    loads_of_single h hspec hnew hfs hsame hsingle draw
  refine ⟨io, { r with idx := idx' }, hsave, hload, rfl, rfl, rfl, ?_, ?_⟩
  · exact hloaded.represents.length.trans hsaved.represents.length.symm
  · intro id
    have hrel := hloaded.2.2.content id
    rw [hm id, hloaded.2.1, ← hfs] at hrel
    exact hrel

end RoundTrip

/-- In every run in which no change drops the entry of an id whose tuple is still the key of a node
with other ids, an index is loaded as it was saved exactly when no two ids have tuples that compare
equal, and the columns have names where the flag of the spec says so. -/
theorem redisIndex_roundTrips_iff {kind : SIIndexKind} {flags : UInt32} {spec : SISpec}
    {r₀ : RedisIndex} (hnew : newRedisIndex kind flags spec = .ok r₀)
    {css : List (List (SIChange × Level))} (htyped : ∀ cs ∈ css, Typed spec cs)
    (hkeys : spec.isUnique = true ∨ Every applyStep KeysNotShared r₀.idx css) :
    ∃ idx, run applyStep r₀.idx css = .ok idx ∧ ∀ draw,
      RoundTrips draw { r₀ with idx := idx } ↔
        (∀ p ∈ spec.properties, p.name.isSome = isNamed spec.flags) ∧ idx.NoEqualTuples := by
  obtain ⟨idx₀, hidx, heq⟩ := bind_eq_ok.1 hnew
  obtain rfl := Except.ok.inj heq
  obtain ⟨idx, hrun, ⟨hspec, bs, hinv⟩, hfs, _⟩ := (stands_new hidx).run htyped hkeys
  refine ⟨idx, hrun, fun draw => ?_⟩
  rw [← loaded_eq_iff, hinv.single_iff]
  constructor
  · exact single_of_roundTrips (r := { kind, flags, spec, idx }) hinv hspec hidx
  · rintro ⟨hsame, hsingle⟩
    exact roundTrips_of_single (r := { kind, flags, spec, idx }) hinv hspec hidx hfs hsame hsingle

/-- A tuple that two ids had is held by one of them when the index is saved. -/
theorem redisIndex_roundTrips_iff_int :
    ∃ r₀, newRedisIndex .abstractIndex 0 (oneColumn .int32 0) = .ok r₀ ∧
      ∃ idx, run applyStep r₀.idx
          [[add idA (.int32 1), add idB (.int32 1)], [del idB], [add idC (.int32 2)]] = .ok idx ∧
        ∀ draw, RoundTrips draw { r₀ with idx := idx } ↔
          (∀ p ∈ (oneColumn .int32 0).properties,
            p.name.isSome = isNamed (oneColumn .int32 0).flags) ∧ idx.NoEqualTuples := by
  refine ⟨_, rfl, redisIndex_roundTrips_iff rfl ?_ (Or.inr ?_)⟩
  · decide
  · decide +kernel

/-- Two ids with one tuple make four records, of which the loader takes two. -/
theorem redisIndex_sharedKey_not_roundTrips :
    ∃ r₀, newRedisIndex .abstractIndex 0 (oneColumn .int32 0) = .ok r₀ ∧
      Typed (oneColumn .int32 0) [add idA (.int32 1), add idB (.int32 1)] ∧
      ∃ idx, run applyStep r₀.idx [[add idA (.int32 1), add idB (.int32 1)]] = .ok idx ∧
        ∀ draw, ¬RoundTrips draw { r₀ with idx := idx } := by
  obtain ⟨idx₀, hidx⟩ : ∃ idx₀, siNewCompoundIndex (oneColumn .int32 0) = .ok idx₀ := ⟨_, rfl⟩
  have hnew : newRedisIndex .abstractIndex 0 (oneColumn .int32 0) =
      .ok ⟨.abstractIndex, 0, oneColumn .int32 0, idx₀⟩ := by
    simp [newRedisIndex, hidx]
  have hkeys : (siNewCompoundIndex (oneColumn .int32 0)).map (fun idx₀ =>
      decide (KeysNotShared idx₀ [add idA (.int32 1), add idB (.int32 1)])) = .ok true := by
    decide +kernel
  have hcontent : (siNewCompoundIndex (oneColumn .int32 0) >>= fun idx₀ =>
      run applyStep idx₀ [[add idA (.int32 1), add idB (.int32 1)]] >>= fun idx =>
        .ok (idx.content idA, idx.content idB)) =
      .ok (some [.int32 1], some [.int32 1]) := by
    decide +kernel
  rw [hidx] at hkeys hcontent
  rw [ok_bind] at hcontent
  have hkeys' : Every applyStep KeysNotShared idx₀ [[add idA (.int32 1), add idB (.int32 1)]] :=
    ⟨of_decide_eq_true (Except.ok.inj hkeys), fun _ _ => trivial⟩
  obtain ⟨idx, hrun, ⟨hspec, bs, hinv⟩, _, _⟩ :=
    (stands_new hidx).run (by decide) (Or.inr hkeys')
  refine ⟨_, hnew, by decide, idx, hrun, fun draw hround => ?_⟩
  rw [hrun, ok_bind, Except.ok.injEq, Prod.mk.injEq] at hcontent
  have hsingle := (single_of_roundTrips (r := ⟨.abstractIndex, 0, oneColumn .int32 0, idx⟩) hinv
    hspec hidx hround).2
  have hequal := CompareEqual.refl hinv.cmpFuncs (hinv.content_ok hcontent.1)
  exact absurd (hinv.single_iff.2 hsingle idA idB _ _ hcontent.1 hcontent.2 hequal) (by decide)

end Secondary
