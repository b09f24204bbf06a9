import Secondary.IndexInvariant

/-!
# IndexChange — what one change does to the contents of an index

`idx.content id` is the tuple that the index holds for an id.  Every change keeps the invariant,
and what it does to the contents is said once: `Removed` for a DEL and `Added` for an ADD.
-/

namespace Secondary

open Lib

/-! ## Dropping and storing an entry -/

/-- What `storeEntry` does depends on the reverse index only through what it adds to it. -/
theorem storeEntry_erase {idx : CompoundIndex} {id : SIId} {r : KeyRef} {level : Level}
    {idx' : CompoundIndex}
    (h : storeEntry { idx with ri := idx.ri.erase id } id r level = .ok idx') :
    storeEntry idx id r level = .ok idx' := by
  obtain ⟨sl', hrun, heq⟩ := bind_eq_ok.1 h
  have hri : (idx.ri.erase id).insert id r = idx.ri.insert id r := by
    refine Finmap.ext_lookup fun id' => ?_
    by_cases hid : id' = id
    · subst hid
      simp
    · rw [Finmap.lookup_insert_of_ne _ hid, Finmap.lookup_insert_of_ne _ hid,
        Finmap.lookup_erase_ne hid]
  have hrun' : skiplistInsert idx.compare strcmp idx.sl r id level = .ok sl' := hrun
  simp only [hri] at heq
  simp [storeEntry, hrun', ← heq]

namespace CompoundIndex

/-- The tuple that an id is stored under. -/
def content (idx : CompoundIndex) (id : SIId) : Option SIMultiKey :=
  (idx.ri.lookup id).bind idx.keys.cell

theorem content_congr {idx : CompoundIndex} {keys : Store SIMultiKey}
    (h : ∀ id r, idx.ri.lookup id = some r → keys.cell r = idx.keys.cell r) (id : SIId) :
    ({ idx with keys := keys } : CompoundIndex).content id = idx.content id := by
  cases hl : idx.ri.lookup id with
  | none => simp [content, hl]
  | some r => simp [content, hl, h id r hl]

/-- No two ids have tuples that compare equal. -/
def NoEqualTuples (idx : CompoundIndex) : Prop :=
  ∀ id id' k k', idx.content id = some k → idx.content id' = some k' →
    CompareEqual idx.cmpFuncs k k' → id = id'

end CompoundIndex

/-- `idx'` is `idx` with other entries. -/
structure SameSpec (idx idx' : CompoundIndex) : Prop where
  spec : idx'.spec = idx.spec
  cmpFuncs : idx'.cmpFuncs = idx.cmpFuncs
  numFuncs : idx'.numFuncs = idx.numFuncs

theorem SameSpec.trans {idx₁ idx₂ idx₃ : CompoundIndex} (h : SameSpec idx₁ idx₂)
    (h' : SameSpec idx₂ idx₃) : SameSpec idx₁ idx₃ where
  spec := h'.spec.trans h.spec
  cmpFuncs := h'.cmpFuncs.trans h.cmpFuncs
  numFuncs := h'.numFuncs.trans h.numFuncs

namespace IndexInv

variable {idx : CompoundIndex} {bs : List (Bucket KeyRef SIId)} {id : SIId} {r : KeyRef}

/-- What an index holds after the entry of `id` has been dropped. -/
theorem content_dropEntry (h : IndexInv idx bs) (hl : idx.ri.lookup id = some r)
    (sl' : Skiplist KeyRef SIId) (id' : SIId) :
    ({ idx with
        sl := sl'
        keys := idx.keys.free r
        length := idx.length - 1
        ri := idx.ri.erase id } : CompoundIndex).content id' =
      if id' = id then none else idx.content id' := by
  by_cases hid : id' = id
  · subst hid
    simp [CompoundIndex.content]
  · simp only [CompoundIndex.content, Finmap.lookup_erase_ne hid, hid, if_false]
    cases hl' : idx.ri.lookup id' with
    | none => rfl
    | some r' =>
        have hr : r' ≠ r := by
          rintro rfl
          exact hid (h.inj id' id r' hl' hl)
        exact Store.cell_free_of_ne idx.keys hr

/-- A new id is stored under a new tuple. -/
theorem storeNew (h : IndexInv idx bs) (hid : id ∉ idx.ri) (hlive : idx.KeyLive r)
    (hown : ∀ id', idx.ri.lookup id' ≠ some r)
    (huniq : idx.spec.isUnique = true → ∀ b ∈ bs, idx.refCmp b.key r ≠ 0) (level : Level) :
    ∃ idx' bs', Secondary.storeEntry idx id r level = .ok idx' ∧ IndexInv idx' bs' ∧
      SameSpec idx idx' ∧
      ∀ id', idx'.content id' = if id' = id then idx.keys.cell r else idx.content id' := by
  obtain ⟨sl', hrun, hinv⟩ := h.storeEntry hid hlive hown huniq level
  refine ⟨_, _, hrun, hinv, ⟨rfl, rfl, rfl⟩, ?_⟩
  intro id'
  by_cases hid' : id' = id
  · subst hid'
    simp [CompoundIndex.content]
  · simp [CompoundIndex.content, Finmap.lookup_insert_of_ne _ hid', hid']

/-- `compoundIndex_applyDel` of an id that is there. -/
theorem applyDel (h : IndexInv idx bs) (hl : idx.ri.lookup id = some r)
    (hk : ∀ b ∈ bs, b.key = r → b.vals = [id]) :
    ∃ idx' bs', compoundIndexApplyDel idx id = .ok (idx', siIndexOk) ∧ IndexInv idx' bs' ∧
      SameSpec idx idx' ∧
      ∀ id', idx'.content id' = if id' = id then none else idx.content id' := by
  obtain ⟨sl', hrun, hinv⟩ := h.dropEntry hl hk
  refine ⟨_, _, ?_, hinv, ⟨rfl, rfl, rfl⟩, h.content_dropEntry hl sl'⟩
  simp [compoundIndexApplyDel, hl, hrun]

/-- The first half of replacing an entry: without the old one, the id is a new one. -/
theorem dropOld (h : IndexInv idx bs)
    (hk : ∀ r, idx.ri.lookup id = some r → ∀ b ∈ bs, b.key = r → b.vals = [id]) :
    ∃ sl' keys' length' bs',
      dropExisting idx id = .ok { idx with sl := sl', keys := keys', length := length' } ∧
      IndexInv { idx with sl := sl', keys := keys', length := length', ri := idx.ri.erase id } bs' ∧
      (∀ r', (∀ id', idx.ri.lookup id' ≠ some r') → keys'.cell r' = idx.keys.cell r') ∧
      (∀ b ∈ bs', ∃ d ∈ bs, d.key = b.key ∧ keys'.cell b.key = idx.keys.cell b.key) ∧
      ∀ id', ({ idx with
          sl := sl'
          keys := keys'
          length := length'
          ri := idx.ri.erase id } : CompoundIndex).content id' =
        if id' = id then none else idx.content id' := by
  cases hl : idx.ri.lookup id with
  | none =>
      -- The id is new: there is nothing to drop.
      have herase : idx.ri.erase id = idx.ri := by
        refine Finmap.ext_lookup fun id' => ?_
        by_cases hid : id' = id
        · subst hid
          simp [hl]
        · rw [Finmap.lookup_erase_ne hid]
      refine ⟨idx.sl, idx.keys, idx.length, bs, by simp [dropExisting, hl], ?_, fun _ _ => rfl,
        fun b hb => ⟨b, hb, rfl, rfl⟩, ?_⟩
      · rw [herase]
        exact h
      · intro id'
        rw [herase]
        by_cases hid : id' = id
        · subst hid
          simp [CompoundIndex.content, hl]
        · simp [CompoundIndex.content, hid]
  | some r =>
      obtain ⟨sl', hdrop, hinv⟩ := h.dropEntry hl (hk r hl)
      refine ⟨sl', idx.keys.free r, idx.length - 1, _, by simp [dropExisting, hl, hdrop], hinv, ?_,
        ?_, h.content_dropEntry hl sl'⟩
      · intro r' hr'
        refine Store.cell_free_of_ne idx.keys ?_
        rintro rfl
        exact hr' id hl
      · intro b hb
        have hkey : b.key ∈ bs.map Bucket.key :=
          (Bucket.delete_keys_sublist bs).subset (List.mem_map_of_mem hb)
        obtain ⟨d, hd, hdkey⟩ := List.mem_map.1 hkey
        -- The key of a bucket that is left is the key of another id.
        obtain ⟨id', _, hl'⟩ := hinv.owner b hb
        exact ⟨d, hd, hdkey, h.cell_free_of_erase hl hl'⟩

variable (idx) in
/-- The second half, with a tuple that is live and in no other entry. -/
theorem storeNew_erase (h : IndexInv { idx with ri := idx.ri.erase id } bs)
    (hlive : idx.KeyLive r) (hown : ∀ id', (idx.ri.erase id).lookup id' ≠ some r)
    (huniq : idx.spec.isUnique = true → ∀ b ∈ bs, idx.refCmp b.key r ≠ 0) (level : Level) :
    ∃ idx' bs', Secondary.storeEntry idx id r level = .ok idx' ∧ IndexInv idx' bs' ∧
      SameSpec idx idx' ∧
      ∀ id', idx'.content id' =
        if id' = id then idx.keys.cell r
        else ({ idx with ri := idx.ri.erase id } : CompoundIndex).content id' := by
  have hid : id ∉ idx.ri.erase id := fun hmem => (Finmap.mem_erase.1 hmem).1 rfl
  obtain ⟨idx', bs', hrun, hinv, hsame, hcontent⟩ := h.storeNew hid hlive hown huniq level
  exact ⟨idx', bs', storeEntry_erase hrun, hinv, ⟨hsame.spec, hsame.cmpFuncs, hsame.numFuncs⟩,
    hcontent⟩

/-- A replaced or new entry, with the tuple allocated on the way. -/
theorem replaceEntry_none (h : IndexInv idx bs) (hu : idx.spec.isUnique = false)
    {vals : List SIValue} (hvals : KeyOk idx.spec.types vals)
    (hk : ∀ r, idx.ri.lookup id = some r → ∀ b ∈ bs, b.key = r → b.vals = [id]) (level : Level) :
    ∃ idx' bs', replaceEntry idx id vals none level = .ok (idx', siIndexOk) ∧ IndexInv idx' bs' ∧
      SameSpec idx idx' ∧
      ∀ id', idx'.content id' = if id' = id then some vals else idx.content id' := by
  obtain ⟨sl₁, keys₁, length₁, bs₁, hdrop, hinv₁, _, _, hcontent₁⟩ := h.dropOld hk
  obtain ⟨_, hinv₂, hlive, hown⟩ := hinv₁.allocKey hvals
  have halloc : Secondary.allocKey { idx with sl := sl₁, keys := keys₁, length := length₁ } vals =
      .ok ({ idx with sl := sl₁, keys := keys₁.alloc vals, length := length₁ }, keys₁.next) := by
    simp [Secondary.allocKey, h.newMultiKey hvals]
  obtain ⟨idx', bs', hstore, hinv', hsame, hcontent⟩ :=
    storeNew_erase { idx with sl := sl₁, keys := keys₁.alloc vals, length := length₁ } hinv₂ hlive
      hown (fun hu' => absurd hu' (by simp [hu])) level
  refine ⟨idx', bs', by simp [replaceEntry, hdrop, halloc, hstore], hinv',
    ⟨hsame.spec, hsame.cmpFuncs, hsame.numFuncs⟩, ?_⟩
  intro id'
  rw [hcontent id']
  by_cases hid : id' = id
  · simp [hid]
  · simp only [hid, if_false]
    have hcells := CompoundIndex.content_congr (fun _ _ hl' => hinv₁.cell_alloc vals hl') id'
    rw [hcells, hcontent₁ id', if_neg hid]

/-- The same with the tuple that a unique index has allocated before. -/
theorem replaceEntry_some (h : IndexInv idx bs) (hu : idx.spec.isUnique = true)
    (hlive : idx.KeyLive r) (hown : ∀ id', idx.ri.lookup id' ≠ some r)
    (hnew : ∀ b ∈ bs, idx.refCmp b.key r ≠ 0) (id : SIId) (vals : List SIValue) (level : Level) :
    ∃ idx' bs', replaceEntry idx id vals (some r) level = .ok (idx', siIndexOk) ∧
      IndexInv idx' bs' ∧ SameSpec idx idx' ∧
      ∀ id', idx'.content id' = if id' = id then idx.keys.cell r else idx.content id' := by
  have hk : ∀ r, idx.ri.lookup id = some r → ∀ b ∈ bs, b.key = r → b.vals = [id] :=
    fun _ hl => h.vals_of_unique hu hl
  obtain ⟨sl₁, keys₁, length₁, bs₁, hdrop, hinv₁, hkeep, hkeys₁, hcontent₁⟩ := h.dropOld hk
  have hcell := hkeep r hown
  have hown₁ : ∀ id', (idx.ri.erase id).lookup id' ≠ some r :=
    fun id' hl' => hown id' (lookup_of_erase hl').2
  obtain ⟨idx', bs', hstore, hinv', hsame, hcontent⟩ :=
    storeNew_erase { idx with sl := sl₁, keys := keys₁, length := length₁ } hinv₁
      (hlive.congr hcell) hown₁
      (by
        intro _ b hb
        obtain ⟨d, hd, hkey, hbcell⟩ := hkeys₁ b hb
        show Secondary.refCmp idx.cmpFuncs keys₁ b.key r ≠ 0
        rw [refCmp_congr hbcell hcell, ← hkey]
        exact hnew d hd)
      level
  refine ⟨idx', bs', by simp [replaceEntry, hdrop, hstore], hinv',
    ⟨hsame.spec, hsame.cmpFuncs, hsame.numFuncs⟩, ?_⟩
  intro id'
  rw [hcontent id']
  by_cases hid : id' = id
  · simp [hid, hcell]
  · rw [if_neg hid, if_neg hid, hcontent₁ id', if_neg hid]

end IndexInv

/-! ## Tuples and buckets -/

theorem compareEqual_iff_refCmp {types : List SIType} {fs : List SIKeyCmpFunc}
    {keys : Store SIMultiKey} {r r' : KeyRef} {k k' : SIMultiKey} (hfs : CmpFuncsOf types fs)
    (hr : keys.cell r = some k) (hk : KeyOk types k) (hr' : keys.cell r' = some k')
    (hk' : KeyOk types k') : CompareEqual fs k k' ↔ refCmp fs keys r r' = 0 := by
  have hrun := (compareKeys_signs hfs ⟨k, hr, hk⟩ ⟨k', hr', hk'⟩).1
  have hcmp : siCmpMultiKey fs k k' = .ok (refCmp fs keys r r') := by
    simpa [compareKeys, readKey_of_cell hr, readKey_of_cell hr'] using hrun
  rw [CompareEqual, hcmp, Except.ok.injEq]

theorem content_eq_some {idx : CompoundIndex} {id : SIId} {k : SIMultiKey} :
    idx.content id = some k ↔ ∃ r, idx.ri.lookup id = some r ∧ idx.keys.cell r = some k :=
  Option.bind_eq_some_iff

namespace IndexInv

variable {idx : CompoundIndex} {bs : List (Bucket KeyRef SIId)} {id id' : SIId} {r : KeyRef}
  {k k' : SIMultiKey}

theorem content_ok (h : IndexInv idx bs) (hk : idx.content id = some k) :
    KeyOk idx.spec.types k := by
  obtain ⟨r, hl, hcell⟩ := content_eq_some.1 hk
  obtain ⟨k', hk', hok⟩ := h.live id r hl
  obtain rfl : k = k' := Option.some.inj (hcell.symm.trans hk')
  exact hok

theorem exists_content (h : IndexInv idx bs) : id ∈ idx.ri ↔ ∃ k, idx.content id = some k := by
  constructor
  · intro hid
    obtain ⟨r, hl⟩ := Finmap.mem_iff.1 hid
    obtain ⟨k, hk, _⟩ := h.live id r hl
    exact ⟨k, content_eq_some.2 ⟨r, hl, hk⟩⟩
  · rintro ⟨k, hk⟩
    obtain ⟨r, hl, _⟩ := content_eq_some.1 hk
    exact Finmap.mem_of_lookup_eq_some hl

theorem exists_bucket (h : IndexInv idx bs) (hk : idx.content id = some k) :
    ∃ b ∈ bs, id ∈ b.vals :=
  Bucket.mem_allVals.1 ((h.mem id).2 (h.exists_content.2 ⟨k, hk⟩))

/-- Only one bucket has a key of the class of `r`. -/
theorem bucket_unique (h : IndexInv idx bs) (hr : idx.KeyLive r) {b d : Bucket KeyRef SIId}
    (hb : b ∈ bs) (hd : d ∈ bs) (hbr : idx.refCmp b.key r = 0) (hdr : idx.refCmp d.key r = 0) :
    b = d := by
  rcases h.position hr with ⟨as, x, cs, rfl, hbelow, _, habove⟩ | ⟨as, cs, rfl, hbelow, habove⟩
  · have hit : ∀ a ∈ as ++ x :: cs, idx.refCmp a.key r = 0 → a = x := by
      intro a ha hzero
      rcases List.mem_append.1 ha with ha | ha
      · exact absurd hzero (Int.ne_of_lt (hbelow a ha))
      · rcases List.mem_cons.1 ha with rfl | ha
        · rfl
        · exact absurd hzero (Int.ne_of_lt (habove a ha)).symm
    rw [hit b hb hbr, hit d hd hdr]
  · rcases List.mem_append.1 hb with hb | hb
    · exact absurd hbr (Int.ne_of_lt (hbelow b hb))
    · exact absurd hbr (Int.ne_of_lt (habove b hb)).symm

/-- The tuple of an id of a bucket is in the class of `r` if the bucket's key is. -/
theorem bucket_class (h : IndexInv idx bs) {b : Bucket KeyRef SIId} (hb : b ∈ bs)
    (hid : id ∈ b.vals) (hk : idx.content id = some k) (hr : idx.keys.cell r = some k')
    (hk' : KeyOk idx.spec.types k') :
    CompareEqual idx.cmpFuncs k k' ↔ idx.refCmp b.key r = 0 := by
  obtain ⟨r₀, hl, hcell⟩ := content_eq_some.1 hk
  have hlive := h.live id r₀ hl
  have hsame := h.same b hb id hid r₀ hl
  have hback := (h.preorder.eq_comm (h.key_live hb) hlive).1 hsame
  rw [compareEqual_iff_refCmp h.cmpFuncs hcell (h.content_ok hk) hr hk']
  constructor
  · exact h.preorder.eq_trans (h.key_live hb) hlive ⟨k', hr, hk'⟩ hsame
  · exact h.preorder.eq_trans hlive (h.key_live hb) ⟨k', hr, hk'⟩ hback

/-- Ids have tuples that compare equal when they are in one bucket. -/
theorem same_bucket (h : IndexInv idx bs) {b d : Bucket KeyRef SIId} (hb : b ∈ bs) (hd : d ∈ bs)
    (hid : id ∈ b.vals) (hid' : id' ∈ d.vals) (hk : idx.content id = some k)
    (hk' : idx.content id' = some k') : CompareEqual idx.cmpFuncs k k' ↔ b = d := by
  obtain ⟨r', hl', hcell'⟩ := content_eq_some.1 hk'
  have hd' := h.same d hd id' hid' r' hl'
  rw [h.bucket_class hb hid hk hcell' (h.content_ok hk')]
  constructor
  · intro hb'
    exact h.bucket_unique (h.live id' r' hl') hb hd hb' hd'
  · rintro rfl
    exact hd'

/-- No two ids have equal tuples when every bucket has one id. -/
theorem single_iff (h : IndexInv idx bs) :
    idx.NoEqualTuples ↔ ∀ b ∈ bs, ∃ id, b.vals = [id] := by
  constructor
  · intro hno b hb
    obtain ⟨id, hid, _⟩ := h.owner b hb
    have hall : ∀ id' ∈ b.vals, id' = id := by
      intro id' hid'
      obtain ⟨k, hk⟩ := h.exists_content.1 ((h.mem id).1 (Bucket.mem_allVals.2 ⟨b, hb, hid⟩))
      obtain ⟨k', hk'⟩ := h.exists_content.1 ((h.mem id').1 (Bucket.mem_allVals.2 ⟨b, hb, hid'⟩))
      exact hno id' id k' k hk' hk ((h.same_bucket hb hb hid' hid hk' hk).2 rfl)
    have hnodup : b.vals.Nodup := (List.nodup_flatMap.1 h.nodup).1 b hb
    have hpos : 0 < b.vals.length := List.length_pos_of_mem hid
    have hrep : b.vals = List.replicate b.vals.length id := List.eq_replicate_of_mem hall
    have hone : b.vals.length ≤ 1 := List.nodup_replicate.1 (hrep ▸ hnodup)
    exact ⟨id, by rw [hrep, le_antisymm hone hpos]; rfl⟩
  · intro hsingle id id' k k' hk hk' hequal
    obtain ⟨b, hb, hid⟩ := h.exists_bucket hk
    obtain ⟨d, hd, hid'⟩ := h.exists_bucket hk'
    obtain rfl := (h.same_bucket hb hd hid hid' hk hk').1 hequal
    obtain ⟨x, hx⟩ := hsingle b hb
    rw [hx, List.mem_singleton] at hid hid'
    rw [hid, hid']

end IndexInv

/-! ## Adding -/

/-- Another id holds a tuple that compares equal to `vals`. -/
def CompoundIndex.Conflict (idx : CompoundIndex) (id : SIId) (vals : List SIValue) : Prop :=
  ∃ id' k, id' ≠ id ∧ idx.content id' = some k ∧ CompareEqual idx.cmpFuncs k vals

/-- What an ADD of `vals` for `id` does, with its result code. -/
inductive Added (idx : CompoundIndex) (id : SIId) (vals : List SIValue) :
    CompoundIndex → Int → Prop
  | duplicate {idx' : CompoundIndex} (unique : idx.spec.isUnique = true)
      (conflict : idx.Conflict id vals) (sl : idx'.sl = idx.sl) (ri : idx'.ri = idx.ri)
      (length : idx'.length = idx.length) (content : ∀ id', idx'.content id' = idx.content id') :
      Added idx id vals idx' siIndexDuplicateKey
  | kept {idx' : CompoundIndex} {k : SIMultiKey} (unique : idx.spec.isUnique = true)
      (own : idx.content id = some k) (equal : CompareEqual idx.cmpFuncs k vals)
      (alone : ¬idx.Conflict id vals) (content : ∀ id', idx'.content id' = idx.content id') :
      Added idx id vals idx' siIndexOk
  | stored {idx' : CompoundIndex} (alone : idx.spec.isUnique = true → ¬idx.Conflict id vals)
      (content : ∀ id', idx'.content id' = if id' = id then some vals else idx.content id') :
      Added idx id vals idx' siIndexOk

namespace IndexInv

variable {idx : CompoundIndex} {bs : List (Bucket KeyRef SIId)} {id : SIId}

/-- Where no node is in the class of a tuple, no id holds a tuple of that class. -/
theorem absent_of_miss (h : IndexInv idx bs) {r : KeyRef} {k vals : SIMultiKey}
    (hr : idx.keys.cell r = some vals) (hvals : KeyOk idx.spec.types vals)
    (hmiss : ∀ b ∈ bs, idx.refCmp b.key r ≠ 0) (hk : idx.content id = some k) :
    ¬CompareEqual idx.cmpFuncs k vals := by
  obtain ⟨b, hb, hid⟩ := h.exists_bucket hk
  rw [h.bucket_class hb hid hk hr hvals]
  exact hmiss b hb

/-- Where a node is, its ids are the ones that hold such a tuple. -/
theorem holds_of_hit (h : IndexInv idx bs) {r : KeyRef} {k vals : SIMultiKey}
    (hr : idx.keys.cell r = some vals) (hvals : KeyOk idx.spec.types vals)
    {b : Bucket KeyRef SIId} (hb : b ∈ bs) (hhit : idx.refCmp b.key r = 0)
    (hk : idx.content id = some k) : CompareEqual idx.cmpFuncs k vals ↔ id ∈ b.vals := by
  obtain ⟨d, hd, hid⟩ := h.exists_bucket hk
  rw [h.bucket_class hd hid hk hr hvals]
  constructor
  · intro hzero
    rwa [← h.bucket_unique ⟨vals, hr, hvals⟩ hd hb hzero hhit]
  · intro hid'
    have hdb := (h.same_bucket hd hb hid hid' hk hk).1
    obtain ⟨r', hl', hcell'⟩ := content_eq_some.1 hk
    have hself : CompareEqual idx.cmpFuncs k k :=
      (h.bucket_class hb hid' hk hcell' (h.content_ok hk)).2 (h.same b hb id hid' r' hl')
    rw [hdb hself]
    exact hhit

/-- `compoundIndex_applyAdd` in a unique index.  Where the id already holds a tuple that compares
equal, that tuple stays. -/
theorem applyAdd_unique (h : IndexInv idx bs) (hu : idx.spec.isUnique = true)
    {vals : List SIValue} (hvals : KeyOk idx.spec.types vals) (id : SIId) (level : Level) :
    ∃ idx' bs' code, compoundIndexApplyAdd idx id vals level = .ok (idx', code) ∧
      IndexInv idx' bs' ∧ SameSpec idx idx' ∧ Added idx id vals idx' code ∧
      ∀ k, idx.content id = some k → CompareEqual idx.cmpFuncs k vals →
        ∀ id', idx'.content id' = idx.content id' := by
  obtain ⟨halloc, hinv, hlive, hown⟩ := h.allocKey hvals
  have hcontent : ∀ keys, (∀ id' r', idx.ri.lookup id' = some r' →
      keys.cell r' = idx.keys.cell r') →
      ∀ id', ({ idx with keys := keys } : CompoundIndex).content id' = idx.content id' :=
    fun _ hcells => CompoundIndex.content_congr hcells
  have halloced := hcontent _ fun _ _ hl' => h.cell_alloc vals hl'
  have hcell : (idx.keys.alloc vals).cell idx.keys.next = some vals := Store.cell_alloc_self _ _
  have hfind := hinv.rep.find (hinv.compares hlive) (hinv.position hlive)
  cases hhit : bs.find? fun b =>
      decide (({ idx with keys := idx.keys.alloc vals } : CompoundIndex).refCmp b.key
        idx.keys.next = 0) with
  | none =>
      -- No node is equal: the entry is stored, an old one of the same id is dropped first.
      rw [hhit, Option.map_none] at hfind
      have hmiss : ∀ b ∈ bs, ({ idx with keys := idx.keys.alloc vals } : CompoundIndex).refCmp b.key
          idx.keys.next ≠ 0 := by
        intro b hb
        simpa using List.find?_eq_none.1 hhit b hb
      obtain ⟨idx', bs', hrun, hinv', hsame, hstored⟩ :=
        hinv.replaceEntry_some hu hlive hown hmiss id vals level
      have habsent : ∀ id' k, idx.content id' = some k → ¬CompareEqual idx.cmpFuncs k vals :=
        fun id' k hk => hinv.absent_of_miss hcell hvals hmiss ((halloced id').trans hk)
      refine ⟨idx', bs', siIndexOk, ?_, hinv', ⟨hsame.spec, hsame.cmpFuncs, hsame.numFuncs⟩, ?_,
        fun k hk hequal => absurd hequal (habsent id k hk)⟩
      · simp [compoundIndexApplyAdd, hu, halloc, hfind, hrun]
      · refine .stored ?_ fun id' => by rw [hstored id', hcell, halloced id']
        rintro - ⟨id', k, _, hk, hequal⟩
        exact habsent id' k hk hequal
  | some b =>
      rw [hhit, Option.map_some] at hfind
      have hb := List.mem_of_find?_eq_some hhit
      have hzero : ({ idx with keys := idx.keys.alloc vals } : CompoundIndex).refCmp b.key
          idx.keys.next = 0 := by simpa using List.find?_some hhit
      obtain ⟨x, hx⟩ := h.unique hu b hb
      obtain ⟨n, hn, hnvals⟩ := Nodes.cell_of_valsAt? (h.rep.vals b hb)
      obtain ⟨hfree, hinv'⟩ := hinv.freeKey hlive hown
      have hfreed := hcontent ((idx.keys.alloc vals).free idx.keys.next) fun id' r' hl' => by
        have hne : r' ≠ idx.keys.next := by
          rintro rfl
          exact hown id' hl'
        rw [Store.cell_free_of_ne _ hne]
        exact h.cell_alloc vals hl'
      have hholds : ∀ id' k, idx.content id' = some k →
          (CompareEqual idx.cmpFuncs k vals ↔ id' = x) := by
        intro id' k hk
        have := hinv.holds_of_hit hcell hvals hb hzero ((halloced id').trans hk)
        simpa [hx] using this
      obtain ⟨k, hk⟩ := h.exists_content.1 ((h.mem x).1 (Bucket.mem_allVals.2 ⟨b, hb, by simp [hx]⟩))
      by_cases hxid : x = id
      · subst hxid
        refine ⟨_, bs, siIndexOk, ?_, hinv', ⟨rfl, rfl, rfl⟩,
          .kept hu hk ((hholds x k hk).2 rfl) ?_ hfreed, fun _ _ _ => hfreed⟩
        · simp [compoundIndexApplyAdd, hu, halloc, hfind, Nodes.node, hn, hnvals, hx, hfree,
            strcmp_eq_zero]
        · rintro ⟨id', k', hne, hk', hequal⟩
          exact hne ((hholds id' k' hk').1 hequal)
      · refine ⟨_, bs, siIndexDuplicateKey, ?_, hinv', ⟨rfl, rfl, rfl⟩,
          .duplicate hu ⟨x, k, hxid, hk, (hholds x k hk).2 rfl⟩ rfl rfl rfl hfreed,
          fun _ _ _ => hfreed⟩
        simp [compoundIndexApplyAdd, hu, halloc, hfind, Nodes.node, hn, hnvals, hx, hfree,
          strcmp_eq_zero, hxid]

/-- `compoundIndex_applyAdd`, where no other id needs the old key of the id. -/
theorem applyAdd (h : IndexInv idx bs) {vals : List SIValue} (hvals : KeyOk idx.spec.types vals)
    (hk : ∀ r, idx.ri.lookup id = some r → ∀ b ∈ bs, b.key = r → b.vals = [id]) (level : Level) :
    ∃ idx' bs' code, compoundIndexApplyAdd idx id vals level = .ok (idx', code) ∧
      IndexInv idx' bs' ∧ SameSpec idx idx' ∧ Added idx id vals idx' code := by
  cases hu : idx.spec.isUnique with
  | true =>
      obtain ⟨idx', bs', code, hrun, hinv, hsame, hadded, _⟩ :=
        h.applyAdd_unique hu hvals id level
      exact ⟨idx', bs', code, hrun, hinv, hsame, hadded⟩
  | false =>
      obtain ⟨idx', bs', hrun, hinv, hsame, hcontent⟩ :=
        h.replaceEntry_none hu hvals hk level
      refine ⟨idx', bs', siIndexOk, ?_, hinv, hsame, .stored ?_ hcontent⟩
      · simp [compoundIndexApplyAdd, hu, hrun]
      · simp [hu]

end IndexInv

/-! ## Any change -/

/-- What a change does, with its result code. -/
inductive Changed (idx : CompoundIndex) (ch : SIChange) : CompoundIndex → Int → Prop
  | rejected (bad : ch.type = .unknown ∨
      (ch.type = .chAdd ∧ ch.v.length ≠ idx.spec.types.length)) :
      Changed idx ch idx siIndexError
  | missing (type : ch.type = .chDel) (absent : idx.content ch.id = none) :
      Changed idx ch idx siIndexNotfound
  | removed {idx' : CompoundIndex} (type : ch.type = .chDel)
      (content : ∀ id', idx'.content id' = if id' = ch.id then none else idx.content id') :
      Changed idx ch idx' siIndexOk
  | added {idx' : CompoundIndex} {code : Int} (type : ch.type = .chAdd)
      (arity : ch.v.length = idx.spec.types.length) (outcome : Added idx ch.id ch.v idx' code) :
      Changed idx ch idx' code

/-- An added tuple of the right arity has values of the columns' types, and no NaN. -/
def SIChange.Typed (types : List SIType) (ch : SIChange) : Prop :=
  ch.type = .chAdd → ch.v.length = types.length → KeyOk types ch.v

instance (types : List SIType) : DecidablePred (SIChange.Typed types) := fun ch =>
  inferInstanceAs (Decidable (ch.type = .chAdd → ch.v.length = types.length → KeyOk types ch.v))

/-- A change that may drop the entry that its id has. -/
def SIChange.Drops (types : List SIType) (ch : SIChange) : Prop :=
  ch.type = .chDel ∨ (ch.type = .chAdd ∧ ch.v.length = types.length)

instance (types : List SIType) : DecidablePred (SIChange.Drops types) := fun ch =>
  inferInstanceAs (Decidable (ch.type = .chDel ∨ (ch.type = .chAdd ∧ ch.v.length = types.length)))

/-- One change keeps the invariant, where no other id needs the key that it releases. -/
theorem IndexInv.applyChange {idx : CompoundIndex} {bs : List (Bucket KeyRef SIId)}
    (h : IndexInv idx bs) {ch : SIChange} (htyped : ch.Typed idx.spec.types)
    (hk : ch.Drops idx.spec.types →
      ∀ r, idx.ri.lookup ch.id = some r → ∀ b ∈ bs, b.key = r → b.vals = [ch.id])
    (level : Level) :
    ∃ idx' bs' code, compoundIndexApplyChange idx ch level = .ok (idx', code) ∧
      IndexInv idx' bs' ∧ SameSpec idx idx' ∧ Changed idx ch idx' code := by
  cases htype : ch.type with
  | unknown =>
      refine ⟨idx, bs, siIndexError, ?_, h, ⟨rfl, rfl, rfl⟩, .rejected (Or.inl htype)⟩
      simp [compoundIndexApplyChange, htype]
  | chDel =>
      cases hl : idx.ri.lookup ch.id with
      | none =>
          refine ⟨idx, bs, siIndexNotfound, ?_, h, ⟨rfl, rfl, rfl⟩, .missing htype ?_⟩
          · simp [compoundIndexApplyChange, compoundIndexApplyDel, htype, hl]
          · simp [CompoundIndex.content, hl]
      | some r =>
          obtain ⟨idx', bs', hrun, hinv, hsame, hcontent⟩ :=
            h.applyDel hl (hk (Or.inl htype) r hl)
          refine ⟨idx', bs', siIndexOk, ?_, hinv, hsame, .removed htype hcontent⟩
          simp [compoundIndexApplyChange, htype, hrun]
  | chAdd =>
      by_cases harity : ch.v.length = idx.spec.types.length
      · obtain ⟨idx', bs', code, hrun, hinv, hsame, hadded⟩ :=
          h.applyAdd (htyped htype harity) (hk (Or.inr ⟨htype, harity⟩)) level
        refine ⟨idx', bs', code, ?_, hinv, hsame, .added htype harity hadded⟩
        simp [compoundIndexApplyChange, htype, h.numFuncs, harity, hrun]
      · refine ⟨idx, bs, siIndexError, ?_, h, ⟨rfl, rfl, rfl⟩, .rejected (Or.inr ⟨htype, harity⟩)⟩
        simp [compoundIndexApplyChange, htype, h.numFuncs, harity]

end Secondary
