import Secondary.IndexMap
import Secondary.ReverseIndex

/-!
# HashedIndex — the compound index over its hash table

`Index` keeps the reverse index as a finite map.  Here it is the khash table of `reverse_index.c`,
and the changes go through its operations in the order of the C code.  Every run of
`compoundIndex_Apply` has the same outcome on both, so what is proved of an index over a map holds
of an index over a table.
-/

namespace Secondary

open Lib KHash

/-! ## Changes -/

/-- `compoundIndex`.  The map of `base` is not used. -/
structure HashedIndex where
  base : CompoundIndex
  ri : SIReverseIndex

namespace HashedIndex

/-- `compoundIndex_applyDel` -/
def applyDel (x : HashedIndex) (id : SIId) : Exec (HashedIndex × Int) := do
  match ← siReverseIndexExists x.ri id with
  | none => .ok (x, siIndexNotfound)
  | some oldkey => do
      let base ← dropEntry x.base id oldkey
      let r ← siReverseIndexDelete x.ri id
      .ok ({ base := base, ri := r.1 }, siIndexOk)

/-- `if (exists)` of `compoundIndex_applyAdd`. -/
def dropExisting (x : HashedIndex) (id : SIId) : Exec HashedIndex := do
  match ← siReverseIndexExists x.ri id with
  | none => .ok x
  | some oldkey => do
      let base ← dropEntry x.base id oldkey
      .ok { x with base := base }

/-- The entries of `id` under `key`: first the table is written, then the skiplist. -/
def storeEntry (x : HashedIndex) (id : SIId) (key : KeyRef) (level : Level) :
    Exec (HashedIndex × Int) := do
  let t ← siReverseIndexInsert x.ri id key
  let sl ← skiplistInsert x.base.compare strcmp x.base.sl key id level
  .ok ({ base := { x.base with sl := sl, length := x.base.length + 1 }, ri := t.1 }, siIndexOk)

/-- The second half of `compoundIndex_applyAdd`. -/
def replaceEntry (x : HashedIndex) (id : SIId) (vals : List SIValue) (key : Option KeyRef)
    (level : Level) : Exec (HashedIndex × Int) := do
  let x ← x.dropExisting id
  match key with
  | some key => x.storeEntry id key level
  | none => do
      let r ← allocKey x.base vals
      storeEntry { x with base := r.1 } id r.2 level

/-- `compoundIndex_applyAdd` -/
def applyAdd (x : HashedIndex) (id : SIId) (vals : List SIValue) (level : Level) :
    Exec (HashedIndex × Int) :=
  if x.base.spec.isUnique then do
    let r ← allocKey x.base vals
    let base := r.1
    match ← skiplistFind base.compare base.sl r.2 with
    | some n => do
        let node ← base.sl.nodes.node n
        let val ← orFault node.vals[0]? .bounds
        let base ← base.freeKey r.2
        if strcmp val id = 0 then
          .ok ({ x with base := base }, siIndexOk)
        else
          .ok ({ x with base := base }, siIndexDuplicateKey)
    | none => replaceEntry { x with base := base } id vals (some r.2) level
  else
    replaceEntry x id vals none level

/-- One round of the loop of `compoundIndex_Apply`. -/
def applyChange (x : HashedIndex) (ch : SIChange) (level : Level) : Exec (HashedIndex × Int) :=
  match ch.type with
  | .chAdd =>
      if ch.v.length ≠ x.base.numFuncs.toNat then
        .ok (x, siIndexError)
      else
        applyAdd x ch.id ch.v level
  | .chDel => applyDel x ch.id
  | .unknown => .ok (x, siIndexError)

/-- `compoundIndex_Apply` -/
def apply (x : HashedIndex) : List (SIChange × Level) → Exec (HashedIndex × Int)
  | [] => .ok (x, siIndexOk)
  | ch :: cs => do
      let r ← x.applyChange ch.1 ch.2
      if r.2 ≠ siIndexOk ∧ r.2 ≠ siIndexNotfound then
        .ok r
      else
        r.1.apply cs

/-- One call of `compoundIndex_Apply`, its result code dropped. -/
def applyStep (x : HashedIndex) (cs : List (SIChange × Level)) : Exec HashedIndex := do
  let r ← x.apply cs
  .ok r.1

end HashedIndex

/-- `SI_NewCompoundIndex` -/
def newHashedIndex (spec : SISpec) : Exec HashedIndex := do
  let base ← siNewCompoundIndex spec
  .ok { base := base, ri := siNewReverseIndex }

/-! ## The same outcome -/

/-- The same index but for the reverse index, which is a table for the map. -/
structure SameIndex (idx : CompoundIndex) (x : HashedIndex) : Prop where
  base : x.base = { idx with ri := ∅ }
  table : Represents x.ri idx.ri

/-- The same result code, and the same index. -/
def SameResult (r : CompoundIndex × Int) (s : HashedIndex × Int) : Prop :=
  SameIndex r.1 s.1 ∧ s.2 = r.2

section Parts

variable {idx : CompoundIndex} {x : HashedIndex} (m : IdMap)

/-- The entry is dropped from the skiplist and the keys alone. -/
theorem dropEntry_withMap (idx : CompoundIndex) (id : SIId) (key : KeyRef) :
    dropEntry { idx with ri := m } id key =
      dropEntry idx id key >>= fun idx' => .ok { idx' with ri := m } := by
  show (skiplistDelete idx.compare strcmp idx.sl key (some id) >>= _) = (_ >>= _) >>= _
  cases skiplistDelete idx.compare strcmp idx.sl key (some id) with
  | error e => rfl
  | ok r =>
      simp only [ok_bind, CompoundIndex.freeKey]
      cases readKey idx.keys key <;> rfl

theorem ri_of_dropEntry {id : SIId} {key : KeyRef} {idx' : CompoundIndex}
    (h : dropEntry idx id key = .ok idx') : idx'.ri = idx.ri := by
  obtain ⟨r, _, h⟩ := bind_eq_ok.1 h
  obtain ⟨idx₁, hfree, h⟩ := bind_eq_ok.1 h
  obtain ⟨_, _, hfree⟩ := bind_eq_ok.1 hfree
  cases hfree
  cases h
  rfl

theorem allocKey_withMap (idx : CompoundIndex) (vals : List SIValue) :
    allocKey { idx with ri := m } vals =
      allocKey idx vals >>= fun r => .ok ({ r.1 with ri := m }, r.2) := by
  simp only [allocKey]
  cases siNewMultiKey vals vals.length <;> rfl

theorem ri_of_allocKey {vals : List SIValue} {r : CompoundIndex × KeyRef}
    (h : allocKey idx vals = .ok r) : r.1.ri = idx.ri := by
  obtain ⟨mk, _, h⟩ := bind_eq_ok.1 h
  cases h
  rfl

theorem freeKey_withMap (idx : CompoundIndex) (key : KeyRef) :
    CompoundIndex.freeKey { idx with ri := m } key =
      idx.freeKey key >>= fun idx' => .ok { idx' with ri := m } := by
  simp only [CompoundIndex.freeKey]
  cases readKey idx.keys key <;> rfl

theorem ri_of_freeKey {key : KeyRef} {idx' : CompoundIndex} (h : idx.freeKey key = .ok idx') :
    idx'.ri = idx.ri := by
  obtain ⟨_, _, h⟩ := bind_eq_ok.1 h
  cases h
  rfl

/-- The bind of a computation on an index with another map. -/
theorem agrees_withMap {α : Type} {y : Exec CompoundIndex} {f : CompoundIndex → Exec α} :
    (y >>= fun idx' => .ok { idx' with ri := m }) >>= f =
      y >>= fun idx' => f { idx' with ri := m } := by
  cases y <;> rfl

end Parts

section Changes

variable {idx : CompoundIndex} {x : HashedIndex} {ids : Finset SIId} {id : SIId}

/-- Both results are of the same index, whose ids are among `ids`. -/
def SameAmong (ids : Finset SIId) (r : CompoundIndex × Int) (s : HashedIndex × Int) : Prop :=
  SameResult r s ∧ r.1.ri.keys ⊆ ids

theorem applyDel_agrees (h : SameIndex idx x) (hamong : idx.ri.keys ⊆ ids) (id : SIId) :
    Agrees (SameAmong ids) (compoundIndexApplyDel idx id) (x.applyDel id) := by
  rw [HashedIndex.applyDel, h.table.exists_eq id, ok_bind, compoundIndexApplyDel]
  cases hl : idx.ri.lookup id with
  | none => exact ⟨⟨h, rfl⟩, hamong⟩
  | some oldkey =>
      obtain ⟨ri', hdel, htable⟩ := h.table.delete id
      simp only [h.base, dropEntry_withMap, agrees_withMap]
      apply Agrees.bind_same
      intro idx' hdrop
      rw [hdel, ok_bind]
      have hri : idx'.ri = idx.ri := ri_of_dropEntry hdrop
      refine ⟨⟨⟨rfl, ?_⟩, rfl⟩, ?_⟩
      · rw [hri]
        exact htable
      · rw [hri]
        exact keys_erase_subset hamong id

theorem dropExisting_agrees (h : SameIndex idx x) (id : SIId) :
    Agrees (fun idx' x' => SameIndex idx' x' ∧ idx'.ri = idx.ri) (dropExisting idx id)
      (x.dropExisting id) := by
  rw [HashedIndex.dropExisting, h.table.exists_eq id, ok_bind, dropExisting]
  cases idx.ri.lookup id with
  | none => exact ⟨h, rfl⟩
  | some oldkey =>
      simp only [h.base, dropEntry_withMap, agrees_withMap]
      apply Agrees.continued
      intro idx' hdrop
      have hri : idx'.ri = idx.ri := ri_of_dropEntry hdrop
      refine ⟨⟨rfl, ?_⟩, hri⟩
      rw [hri]
      exact h.table

theorem storeEntry_agrees (h : SameIndex idx x) (hamong : idx.ri.keys ⊆ ids)
    (hsmall : ids.card ≤ maxIds) (hid : id ∈ ids) (key : KeyRef) (level : Level) :
    Agrees (SameAmong ids) (storeEntry idx id key level >>= fun idx' => .ok (idx', siIndexOk))
      (x.storeEntry id key level) := by
  have hcard : idx.ri.keys.card ≤ maxIds := (Finset.card_le_card hamong).trans hsmall
  obtain ⟨ri', rc, hins, htable, _⟩ := h.table.insert hcard id key
  -- The write of the table does not fail, so the skiplist decides for both.
  simp only [HashedIndex.storeEntry, hins, ok_bind, storeEntry, h.base]
  rw [bind_assoc]
  apply Agrees.bind_same
  intro sl _
  exact ⟨⟨⟨rfl, htable⟩, rfl⟩, keys_insert_subset hamong hid key⟩

/-- An index that has got another skiplist or other keys. -/
theorem SameIndex.of_base (h : SameIndex idx x) {idx' : CompoundIndex} (hri : idx'.ri = idx.ri) :
    SameIndex idx' { x with base := { idx' with ri := ∅ } } :=
  ⟨rfl, by rw [hri]; exact h.table⟩

theorem replaceEntry_agrees (h : SameIndex idx x) (hamong : idx.ri.keys ⊆ ids)
    (hsmall : ids.card ≤ maxIds) (hid : id ∈ ids) (vals : List SIValue) (key : Option KeyRef)
    (level : Level) :
    Agrees (SameAmong ids) (replaceEntry idx id vals key level)
      (x.replaceEntry id vals key level) := by
  apply (dropExisting_agrees h id).bind
  intro idx₁ x₁ _ _ hdrop
  obtain ⟨h₁, hri₁⟩ := hdrop
  have hamong₁ : idx₁.ri.keys ⊆ ids := by rwa [hri₁]
  cases key with
  | some key => exact storeEntry_agrees h₁ hamong₁ hsmall hid key level
  | none =>
      simp only [h₁.base, allocKey_withMap, bind_assoc, ok_bind]
      apply Agrees.bind_same
      intro r halloc
      have hri : r.1.ri = idx₁.ri := ri_of_allocKey halloc
      exact storeEntry_agrees (h₁.of_base hri) (by rwa [hri]) hsmall hid r.2 level

theorem applyAdd_agrees (h : SameIndex idx x) (hamong : idx.ri.keys ⊆ ids)
    (hsmall : ids.card ≤ maxIds) (hid : id ∈ ids) (vals : List SIValue) (level : Level) :
    Agrees (SameAmong ids) (compoundIndexApplyAdd idx id vals level)
      (x.applyAdd id vals level) := by
  have hspec : x.base.spec = idx.spec := by rw [h.base]
  rw [compoundIndexApplyAdd, HashedIndex.applyAdd, hspec]
  split
  · simp only [h.base, allocKey_withMap, bind_assoc, ok_bind]
    apply Agrees.bind_same
    intro r halloc
    have hri : r.1.ri = idx.ri := ri_of_allocKey halloc
    have hamong' : r.1.ri.keys ⊆ ids := by rwa [hri]
    have hsame := h.of_base hri
    apply Agrees.bind_same
    intro found _
    cases found with
    | none => exact replaceEntry_agrees hsame hamong' hsmall hid vals (some r.2) level
    | some n =>
        apply Agrees.bind_same
        intro node _
        apply Agrees.bind_same
        intro val _
        simp only [freeKey_withMap, bind_assoc, ok_bind]
        apply Agrees.bind_same
        intro idx' hfree
        have hri' : idx'.ri = idx.ri := (ri_of_freeKey hfree).trans hri
        have hamong'' : idx'.ri.keys ⊆ ids := by rwa [hri']
        split
        · exact ⟨⟨h.of_base hri', rfl⟩, hamong''⟩
        · exact ⟨⟨h.of_base hri', rfl⟩, hamong''⟩
  · exact replaceEntry_agrees h hamong hsmall hid vals none level

theorem applyChange_agrees (h : SameIndex idx x) (hamong : idx.ri.keys ⊆ ids)
    (hsmall : ids.card ≤ maxIds) (ch : SIChange) (hid : ch.id ∈ ids) (level : Level) :
    Agrees (SameAmong ids) (compoundIndexApplyChange idx ch level) (x.applyChange ch level) := by
  have hnum : x.base.numFuncs = idx.numFuncs := by rw [h.base]
  rw [compoundIndexApplyChange, HashedIndex.applyChange, hnum]
  cases ch.type with
  | chAdd =>
      simp only
      split
      · exact ⟨⟨h, rfl⟩, hamong⟩
      · exact applyAdd_agrees h hamong hsmall hid ch.v level
  | chDel => exact applyDel_agrees h hamong ch.id
  | unknown => exact ⟨⟨h, rfl⟩, hamong⟩

/-- Both stop at the same change. -/
theorem apply_agrees (hsmall : ids.card ≤ maxIds) (cs : List (SIChange × Level)) :
    ∀ {idx : CompoundIndex} {x : HashedIndex}, SameIndex idx x → idx.ri.keys ⊆ ids →
      (∀ ch ∈ cs, ch.1.id ∈ ids) →
        Agrees (SameAmong ids) (compoundIndexApply idx cs) (x.apply cs) := by
  induction cs with
  | nil =>
      intro idx x h hamong _
      exact ⟨⟨h, rfl⟩, hamong⟩
  | cons ch cs ih =>
      intro idx x h hamong hids
      apply (applyChange_agrees h hamong hsmall ch.1 (hids ch (by simp)) ch.2).bind
      rintro r s _ _ ⟨⟨hsame, hrc⟩, hamong'⟩
      rw [hrc]
      split
      · exact ⟨⟨hsame, hrc⟩, hamong'⟩
      · exact ih hsame hamong' fun ch' hch' => hids ch' (List.mem_cons_of_mem _ hch')

end Changes

/-! ## Runs -/

/-- The ids that the changes of a run name. -/
def namedIds (css : List (List (SIChange × Level))) : Finset SIId :=
  (css.flatten.map fun ch => ch.1.id).toFinset

theorem run_agrees {ids : Finset SIId} (hsmall : ids.card ≤ maxIds)
    (css : List (List (SIChange × Level))) :
    ∀ {idx : CompoundIndex} {x : HashedIndex}, SameIndex idx x → idx.ri.keys ⊆ ids →
      (∀ ch ∈ css.flatten, ch.1.id ∈ ids) →
        Agrees SameIndex (run applyStep idx css) (run HashedIndex.applyStep x css) := by
  induction css with
  | nil => exact fun h _ _ => h
  | cons cs css ih =>
      intro idx x h hamong hids
      rw [List.flatten_cons] at hids
      simp only [run_cons, applyStep, HashedIndex.applyStep, bind_assoc, ok_bind]
      apply (apply_agrees hsmall cs h hamong fun ch hch =>
        hids ch (List.mem_append_left _ hch)).bind
      rintro r s _ _ ⟨⟨hsame, _⟩, hamong'⟩
      exact ih hsame hamong' fun ch hch => hids ch (List.mem_append_right _ hch)

theorem new_agrees (spec : SISpec) :
    Agrees SameIndex (siNewCompoundIndex spec) (newHashedIndex spec) := by
  apply Agrees.continued
  intro idx hnew
  obtain ⟨fs, _, h⟩ := bind_eq_ok.1 hnew
  cases h
  exact ⟨rfl, represents_new⟩

/-- An index over a hash table runs like an index over a finite map: where the one faults, the other
does so in the same way, and where they return, the table has the ids and the keys of the map, and
everything else is equal. -/
theorem hashedIndex_agrees (spec : SISpec) (css : List (List (SIChange × Level)))
    (hsmall : (namedIds css).card ≤ maxIds) :
    Agrees SameIndex (siNewCompoundIndex spec >>= fun idx => run applyStep idx css)
      (newHashedIndex spec >>= fun x => run HashedIndex.applyStep x css) := by
  apply (new_agrees spec).bind
  intro idx x hnew _ h
  have hempty : idx.ri.keys ⊆ namedIds css := by
    obtain ⟨fs, _, hidx⟩ := bind_eq_ok.1 hnew
    cases hidx
    simp
  apply run_agrees hsmall css h hempty
  intro ch hch
  exact List.mem_toFinset.2 (List.mem_map_of_mem hch)

/-- An id joins a node and leaves it, and an entry is replaced. -/
theorem hashedIndex_agrees_int :
    ∃ idx x,
      (newHashedIndex (oneColumn .int32 0) >>= fun x => run HashedIndex.applyStep x
        [[add idA (.int32 1), add idB (.int32 1)], [del idB], [add idA (.int32 2)]]) = .ok x ∧
      SameIndex idx x ∧ idx.ri.lookup idA = some 2 ∧ idx.length = 1 := by
  have hsmall : (namedIds [[add idA (.int32 1), add idB (.int32 1)], [del idB],
      [add idA (.int32 2)]]).card ≤ maxIds := by decide
  obtain ⟨x, hrun, hsame⟩ := (hashedIndex_agrees (oneColumn .int32 0) _ hsmall).returns rfl
  exact ⟨_, x, hrun, hsame, rfl, rfl⟩

end Secondary
