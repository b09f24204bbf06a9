import Secondary.Index
import Secondary.KeyOrder
import Secondary.Skiplist.Scan

/-!
# IndexInvariant — what the parts of a compound index have to do with each other

`IndexInv idx bs` says that the skiplist of `idx` holds the buckets `bs`, that the reverse index
maps exactly their ids, and that every tuple in use is one that the reverse index holds: the key
of a node is the key of one of the node's own ids.  Dropping an entry keeps this under one
condition, `KeyNotShared`: a node that uses the key of the leaving id holds no other id.
-/

namespace Secondary

open Lib

/-! ## Keys through references -/

/-- The result of a comparison that does not fault. -/
def returned : Exec Int → Int
  | .ok c => c
  | .error _ => 0

/-- A tuple that has not been freed and fits the columns. -/
def KeyLive (types : List SIType) (keys : Store SIMultiKey) (r : KeyRef) : Prop :=
  ∃ k, keys.cell r = some k ∧ KeyOk types k

def refPlaces (keys : Store SIMultiKey) (r : KeyRef) : List Place :=
  places ((keys.cell r).getD [])

/-- The value of `SICmpMultiKey` on two keys of an index. -/
def refCmp (fs : List SIKeyCmpFunc) (keys : Store SIMultiKey) (r r' : KeyRef) : Int :=
  returned (compareKeys fs keys r r')

section Keys

variable {types : List SIType} {fs : List SIKeyCmpFunc} {keys keys' : Store SIMultiKey}
  {r r' : KeyRef}

theorem readKey_of_cell {k : SIMultiKey} (h : keys.cell r = some k) : readKey keys r = .ok k := by
  simp [readKey, h]

theorem compareKeys_signs (hfs : CmpFuncsOf types fs) (hr : KeyLive types keys r)
    (hr' : KeyLive types keys r') :
    compareKeys fs keys r r' = .ok (refCmp fs keys r r') ∧
      Signs (refCmp fs keys r r') (refPlaces keys r) (refPlaces keys r') := by
  obtain ⟨k, hk, hok⟩ := hr
  obtain ⟨k', hk', hok'⟩ := hr'
  obtain ⟨c, hc, hsigns⟩ := siCmpMultiKey_signs_full hfs hok hok'
  have hrun : compareKeys fs keys r r' = .ok c := by
    simp [compareKeys, readKey_of_cell hk, readKey_of_cell hk', hc]
  have hcmp : refCmp fs keys r r' = c := by simp [refCmp, hrun, returned]
  rw [hcmp]
  exact ⟨hrun, by simpa [refPlaces, hk, hk'] using hsigns⟩

/-- Live keys are totally preordered by `SICmpMultiKey`. -/
theorem preorderCmp_refCmp (hfs : CmpFuncsOf types fs) :
    PreorderCmp (KeyLive types keys) (refCmp fs keys) :=
  PreorderCmp.of_signs (refPlaces keys) fun _ _ hr hr' => (compareKeys_signs hfs hr hr').2

/-- A comparison reads the two cells alone. -/
theorem refCmp_congr (h : keys'.cell r = keys.cell r) (h' : keys'.cell r' = keys.cell r') :
    refCmp fs keys' r r' = refCmp fs keys r r' := by
  simp [refCmp, compareKeys, readKey, h, h']

theorem KeyLive.congr (hr : KeyLive types keys r) (h : keys'.cell r = keys.cell r) :
    KeyLive types keys' r := by
  obtain ⟨k, hk, hok⟩ := hr
  exact ⟨k, h.trans hk, hok⟩

end Keys

namespace CompoundIndex

def refCmp (idx : CompoundIndex) : KeyRef → KeyRef → Int :=
  Secondary.refCmp idx.cmpFuncs idx.keys

def KeyLive (idx : CompoundIndex) : KeyRef → Prop :=
  Secondary.KeyLive idx.spec.types idx.keys

/-- The buckets after the entry of `id` under `r` has been dropped. -/
abbrev withoutEntry (idx : CompoundIndex) (id : SIId) (r : KeyRef)
    (bs : List (Bucket KeyRef SIId)) : List (Bucket KeyRef SIId) :=
  Bucket.delete (fun k => idx.refCmp k r) (remainingVals strcmp (some id)) bs

/-- The buckets after `id` has been stored under `r`. -/
abbrev withEntry (idx : CompoundIndex) (id : SIId) (r : KeyRef)
    (bs : List (Bucket KeyRef SIId)) : List (Bucket KeyRef SIId) :=
  Bucket.insert (fun k => idx.refCmp k r) (fun x y => decide (strcmp x y = 0))
    (newBucket idx.sl r id) id bs

end CompoundIndex

/-! ## The reverse index -/

section Lookup

variable {β : Type} {ri : Finmap fun _ : SIId => β} {id id' : SIId} {r r' : β}

theorem lookup_of_erase (h : (ri.erase id).lookup id' = some r') :
    id' ≠ id ∧ ri.lookup id' = some r' := by
  by_cases hid : id' = id
  · subst hid
    simp at h
  · exact ⟨hid, by rwa [Finmap.lookup_erase_ne hid] at h⟩

/-- What is held after an insertion: the new entry, and the old ones of other ids. -/
theorem lookup_of_insert (h : (ri.insert id r).lookup id' = some r') :
    (id' = id ∧ r' = r) ∨ (id' ≠ id ∧ ri.lookup id' = some r') := by
  by_cases hid : id' = id
  · subst hid
    rw [Finmap.lookup_insert] at h
    exact Or.inl ⟨rfl, (Option.some.inj h).symm⟩
  · exact Or.inr ⟨hid, by rwa [Finmap.lookup_insert_of_ne _ hid] at h⟩

/-- An insertion of a new id keeps the old entries. -/
theorem lookup_insert_of_lookup (hid : id ∉ ri) (h : ri.lookup id' = some r') :
    (ri.insert id r).lookup id' = some r' := by
  have hne : id' ≠ id := by
    rintro rfl
    exact hid (Finmap.mem_of_lookup_eq_some h)
  rwa [Finmap.lookup_insert_of_ne _ hne]

end Lookup

/-! ## The invariant -/

structure IndexInv (idx : CompoundIndex) (bs : List (Bucket KeyRef SIId)) : Prop where
  cmpFuncs : CmpFuncsOf idx.spec.types idx.cmpFuncs
  numFuncs : idx.numFuncs.toNat = idx.spec.types.length
  rep : Rep idx.sl bs
  sorted : Bucket.Sorted idx.refCmp bs
  nonempty : ∀ b ∈ bs, b.vals ≠ []
  /-- Every id is in one bucket, and once in it. -/
  nodup : (Bucket.allVals bs).Nodup
  mem : ∀ id, id ∈ Bucket.allVals bs ↔ id ∈ idx.ri
  live : ∀ id r, idx.ri.lookup id = some r → idx.KeyLive r
  /-- Every id has a key of its own. -/
  inj : ∀ id id' r, idx.ri.lookup id = some r → idx.ri.lookup id' = some r → id = id'
  /-- The key of a node is the key of the first of its ids, the one that the node was made for. -/
  head : ∀ b ∈ bs, ∃ id, b.vals.head? = some id ∧ idx.ri.lookup id = some b.key
  /-- The keys of the ids of a node compare equal to the node's. -/
  same : ∀ b ∈ bs, ∀ id ∈ b.vals, ∀ r, idx.ri.lookup id = some r → idx.refCmp b.key r = 0
  length : idx.length = (Bucket.allVals bs).length
  unique : idx.spec.isUnique = true → ∀ b ∈ bs, ∃ id, b.vals = [id]

/-- A node that uses the key of `id` as its own holds no other id. -/
def KeyNotShared (idx : CompoundIndex) (id : SIId) : Prop :=
  ∀ r, idx.ri.lookup id = some r →
    ∀ x n, idx.sl.nodes.cell x = some n → n.obj = some r → n.vals = [id]

/-- The nodes that can be read are among those allocated so far. -/
theorem keyNotShared_iff {idx : CompoundIndex} {id : SIId} {r : KeyRef}
    (hl : idx.ri.lookup id = some r) :
    KeyNotShared idx id ↔ ∀ x < idx.sl.nodes.next, ∀ n ∈ idx.sl.nodes.cell x,
      n.obj = some r → n.vals = [id] := by
  constructor
  · intro h x _ n hn hobj
    exact h r hl x n hn hobj
  · intro h r' hl' x n hn hobj
    obtain rfl : r = r' := Option.some.inj (hl.symm.trans hl')
    exact h x (Store.lt_next hn) n hn hobj

theorem keyNotShared_of_absent {idx : CompoundIndex} {id : SIId} (hl : idx.ri.lookup id = none) :
    KeyNotShared idx id := by
  intro r hr
  simp [hl] at hr

instance (idx : CompoundIndex) (id : SIId) : Decidable (KeyNotShared idx id) :=
  match hl : idx.ri.lookup id with
  | none => .isTrue (keyNotShared_of_absent hl)
  | some _ => decidable_of_iff _ (keyNotShared_iff hl).symm

namespace IndexInv

variable {idx : CompoundIndex} {bs : List (Bucket KeyRef SIId)} {id : SIId} {r : KeyRef}

/-- The key of a node is the key of one of its ids. -/
theorem owner (h : IndexInv idx bs) (b : Bucket KeyRef SIId) (hb : b ∈ bs) :
    ∃ id ∈ b.vals, idx.ri.lookup id = some b.key := by
  obtain ⟨id, hid, hl⟩ := h.head b hb
  exact ⟨id, List.mem_of_mem_head? hid, hl⟩

theorem preorder (h : IndexInv idx bs) : PreorderCmp idx.KeyLive idx.refCmp :=
  preorderCmp_refCmp h.cmpFuncs

theorem key_live (h : IndexInv idx bs) {b : Bucket KeyRef SIId} (hb : b ∈ bs) :
    idx.KeyLive b.key := by
  obtain ⟨id, _, hl⟩ := h.owner b hb
  exact h.live id b.key hl

theorem compares (h : IndexInv idx bs) (hr : idx.KeyLive r) :
    Compares idx.compare r (fun k => idx.refCmp k r) bs :=
  fun _ hb => (compareKeys_signs h.cmpFuncs (h.key_live hb) hr).1

theorem position (h : IndexInv idx bs) (hr : idx.KeyLive r) :
    Bucket.Position (fun k => idx.refCmp k r) bs :=
  Bucket.position h.preorder h.sorted (fun _ hb => h.key_live hb) hr

/-- Where the entry of an id stands. -/
theorem entry (h : IndexInv idx bs) (hl : idx.ri.lookup id = some r) :
    ∃ as b cs, bs = as ++ b :: cs ∧ id ∈ b.vals ∧ (∀ a ∈ as, idx.refCmp a.key r < 0) ∧
      idx.refCmp b.key r = 0 ∧ ∀ a ∈ cs, 0 < idx.refCmp a.key r := by
  have hmem : id ∈ Bucket.allVals bs := (h.mem id).2 (Finmap.mem_of_lookup_eq_some hl)
  obtain ⟨d, hd, hid⟩ := Bucket.mem_allVals.1 hmem
  have hzero := h.same d hd id hid r hl
  rcases h.position (h.live id r hl) with ⟨as, b, cs, rfl, hbelow, hhit, habove⟩ |
    ⟨as, cs, rfl, hbelow, habove⟩
  · refine ⟨as, b, cs, rfl, ?_, hbelow, hhit, habove⟩
    rcases List.mem_append.1 hd with hd | hd
    · exact absurd hzero (Int.ne_of_lt (hbelow d hd))
    · rcases List.mem_cons.1 hd with rfl | hd
      · exact hid
      · exact absurd hzero (Int.ne_of_lt (habove d hd)).symm
  · rcases List.mem_append.1 hd with hd | hd
    · exact absurd hzero (Int.ne_of_lt (hbelow d hd))
    · exact absurd hzero (Int.ne_of_lt (habove d hd)).symm

/-- The invariant reads the tuples that the reverse index holds alone. -/
theorem withKeys (h : IndexInv idx bs) {keys : Store SIMultiKey}
    (hcells : ∀ id r, idx.ri.lookup id = some r → keys.cell r = idx.keys.cell r) :
    IndexInv { idx with keys := keys } bs := by
  have hkey : ∀ b ∈ bs, keys.cell b.key = idx.keys.cell b.key := by
    intro b hb
    obtain ⟨id, _, hl⟩ := h.owner b hb
    exact hcells id b.key hl
  exact
    { cmpFuncs := h.cmpFuncs
      numFuncs := h.numFuncs
      rep := h.rep
      sorted := by
        refine List.Pairwise.imp_of_mem ?_ h.sorted
        intro a b ha hb hab
        show Secondary.refCmp idx.cmpFuncs keys a.key b.key < 0
        rwa [refCmp_congr (hkey a ha) (hkey b hb)]
      nonempty := h.nonempty
      nodup := h.nodup
      mem := h.mem
      live := fun id r hl => (h.live id r hl).congr (hcells id r hl)
      inj := h.inj
      head := h.head
      same := by
        intro b hb id hid r hl
        show Secondary.refCmp idx.cmpFuncs keys b.key r = 0
        rw [refCmp_congr (hkey b hb) (hcells id r hl)]
        exact h.same b hb id hid r hl
      length := h.length
      unique := h.unique }

theorem vals_of_keyNotShared (h : IndexInv idx bs) (hk : KeyNotShared idx id)
    (hl : idx.ri.lookup id = some r) : ∀ b ∈ bs, b.key = r → b.vals = [id] := by
  intro b hb hkey
  obtain ⟨n, hn, hvals⟩ := Nodes.cell_of_valsAt? (h.rep.vals b hb)
  have hobj := h.rep.obj b hb
  rw [Nodes.objAt?, hn] at hobj
  rw [← hvals]
  refine hk r hl b.tag n hn ?_
  simpa [hkey] using hobj

/-- In a unique index no key is shared. -/
theorem vals_of_unique (h : IndexInv idx bs) (hu : idx.spec.isUnique = true)
    (hl : idx.ri.lookup id = some r) : ∀ b ∈ bs, b.key = r → b.vals = [id] := by
  rintro b hb rfl
  obtain ⟨x, hx⟩ := h.unique hu b hb
  obtain ⟨id', hid', hl'⟩ := h.owner b hb
  obtain rfl : id' = id := h.inj id' id b.key hl' hl
  obtain rfl : id' = x := by simpa [hx] using hid'
  exact hx

/-- Other buckets do not hold the id of this one. -/
theorem id_notMem (h : IndexInv idx bs) {as cs : List (Bucket KeyRef SIId)}
    {b d : Bucket KeyRef SIId} (hbs : bs = as ++ b :: cs) (hid : id ∈ b.vals)
    (hd : d ∈ as ∨ d ∈ cs) : id ∉ d.vals := by
  intro hid'
  have hnodup := h.nodup
  rw [hbs, Bucket.allVals_append, Bucket.allVals_cons, List.nodup_append] at hnodup
  obtain ⟨_, hrest, hcross⟩ := hnodup
  rcases hd with hd | hd
  · refine hcross id (Bucket.mem_allVals.2 ⟨d, hd, hid'⟩) id ?_ rfl
    exact List.mem_append_left _ hid
  · exact (List.nodup_append.1 hrest).2.2 id hid id (Bucket.mem_allVals.2 ⟨d, hd, hid'⟩) rfl

theorem bucket_nodup (h : IndexInv idx bs) {b : Bucket KeyRef SIId} (hb : b ∈ bs) :
    b.vals.Nodup :=
  (List.nodup_flatMap.1 h.nodup).1 b hb

/-- The values that stay when `id` leaves. -/
theorem remainingVals_perm {vals : List SIId} (hid : id ∈ vals) :
    (id :: remainingVals strcmp (some id) vals).Perm vals :=
  swapRemove_perm_of_mem hid fun x _ => by
    rw [decide_eq_true_eq, strcmp_eq_zero, eq_comm]

/-- The keys of the other ids are not the one that is freed. -/
theorem cell_free_of_erase (h : IndexInv idx bs) (hl : idx.ri.lookup id = some r) {id' : SIId}
    {r' : KeyRef} (hl' : (idx.ri.erase id).lookup id' = some r') :
    (idx.keys.free r).cell r' = idx.keys.cell r' := by
  obtain ⟨hne, hlookup⟩ := lookup_of_erase hl'
  refine Store.cell_free_of_ne idx.keys fun hr => ?_
  exact hne (h.inj id' id r (hr ▸ hlookup) hl)

/-- The ids that are left are all but the one that goes. -/
theorem allVals_withoutEntry (h : IndexInv idx bs) (hl : idx.ri.lookup id = some r) :
    (id :: Bucket.allVals (idx.withoutEntry id r bs)).Perm (Bucket.allVals bs) := by
  obtain ⟨as, b, cs, rfl, hid, hbelow, hhit, _⟩ := h.entry hl
  exact Bucket.delete_allVals_perm hbelow hhit (remainingVals_perm hid)

section WithoutEntry

variable {d : Bucket KeyRef SIId}

/-- The buckets that are left: old ones without `id`, and one that has lost it and whose key is
another one. -/
theorem mem_withoutEntry (h : IndexInv idx bs) (hl : idx.ri.lookup id = some r)
    (hk : ∀ b ∈ bs, b.key = r → b.vals = [id]) (hd : d ∈ idx.withoutEntry id r bs) :
    (d ∈ bs ∧ id ∉ d.vals) ∨
      ∃ b ∈ bs, b.key ≠ r ∧ d.key = b.key ∧ d.vals ≠ [] ∧ (id :: d.vals).Perm b.vals := by
  obtain ⟨as, b, cs, rfl, hid, hbelow, hhit, _⟩ := h.entry hl
  have hrest := remainingVals_perm hid
  rcases Bucket.mem_delete_split hbelow hhit hd with hd | ⟨hnil, rfl⟩
  · refine Or.inl ⟨?_, h.id_notMem rfl hid hd⟩
    simp only [List.mem_append, List.mem_cons]
    tauto
  · have hb : b ∈ as ++ b :: cs := by simp
    refine Or.inr ⟨b, hb, fun hkey => ?_, rfl, hnil, hrest⟩
    -- A bucket with the key `r` has no other id, so nothing would be left of it.
    have hlen := hrest.length_eq
    rw [hk b hb hkey] at hlen
    exact hnil (List.length_eq_zero_iff.1 (by simpa [hk b hb hkey] using hlen))

/-- What is left of a bucket is a part of an old one, without `id`. -/
theorem vals_withoutEntry (h : IndexInv idx bs) (hl : idx.ri.lookup id = some r)
    (hk : ∀ b ∈ bs, b.key = r → b.vals = [id]) (hd : d ∈ idx.withoutEntry id r bs) :
    ∃ b ∈ bs, b.key = d.key ∧ d.vals ≠ [] ∧ ∀ id' ∈ d.vals, id' ∈ b.vals ∧ id' ≠ id := by
  rcases h.mem_withoutEntry hl hk hd with ⟨hdbs, hidd⟩ | ⟨b, hb, _, hkey, hnil, hrest⟩
  · exact ⟨d, hdbs, rfl, h.nonempty d hdbs, fun id' hid' => ⟨hid', fun heq => hidd (heq ▸ hid')⟩⟩
  · have hnodup : (id :: d.vals).Nodup := hrest.nodup_iff.2 (h.bucket_nodup hb)
    refine ⟨b, hb, hkey.symm, hnil, fun id' hid' => ⟨hrest.subset (List.mem_cons_of_mem _ hid'), ?_⟩⟩
    rintro rfl
    exact (List.nodup_cons.1 hnodup).1 hid'

/-- The key of a bucket that is left is still the key of the first of its ids: this one can only
leave with its bucket. -/
theorem head_withoutEntry (h : IndexInv idx bs) (hl : idx.ri.lookup id = some r)
    (hk : ∀ b ∈ bs, b.key = r → b.vals = [id]) (hd : d ∈ idx.withoutEntry id r bs) :
    ∃ id', d.vals.head? = some id' ∧ (idx.ri.erase id).lookup id' = some d.key := by
  obtain ⟨as, b, cs, rfl, hid, hbelow, hhit, _⟩ := h.entry hl
  rcases Bucket.mem_delete_split hbelow hhit hd with hold | ⟨hnil, rfl⟩
  · have hdbs : d ∈ as ++ b :: cs := by
      simp only [List.mem_append, List.mem_cons]
      tauto
    obtain ⟨id', hid', hl'⟩ := h.head d hdbs
    have hne : id' ≠ id := by
      rintro rfl
      exact h.id_notMem rfl hid hold (List.mem_of_mem_head? hid')
    exact ⟨id', hid', by rwa [Finmap.lookup_erase_ne hne]⟩
  · obtain ⟨id', hid', hl'⟩ := h.head b (by simp)
    have hne : id' ≠ id := by
      rintro rfl
      have hone := hk b (by simp) (Option.some.inj (hl'.symm.trans hl))
      exact hnil (by simp [remainingVals, swapRemove, hone, strcmp_eq_zero])
    obtain ⟨rest, hvals⟩ := List.head?_eq_some_iff.1 hid'
    have hstays : (remainingVals strcmp (some id) b.vals).head? = some id' := by
      rw [hvals, remainingVals]
      refine head?_swapRemove ?_
      rw [decide_eq_false_iff_not, strcmp_eq_zero]
      exact Ne.symm hne
    exact ⟨id', hstays, by rwa [Finmap.lookup_erase_ne hne]⟩

end WithoutEntry

/-- Dropping the entry of an id whose key no other id needs. -/
theorem dropEntry (h : IndexInv idx bs) (hl : idx.ri.lookup id = some r)
    (hk : ∀ b ∈ bs, b.key = r → b.vals = [id]) :
    ∃ sl', dropEntry idx id r =
        .ok { idx with sl := sl', keys := idx.keys.free r, length := idx.length - 1 } ∧
      IndexInv
        { idx with
          sl := sl'
          keys := idx.keys.free r
          length := idx.length - 1
          ri := idx.ri.erase id }
        (idx.withoutEntry id r bs) := by
  have hlive := h.live id r hl
  obtain ⟨sl', hrun, hrep⟩ :=
    h.rep.delete (h.compares hlive) (h.position hlive) strcmp (some id)
  have hperm := h.allVals_withoutEntry hl
  obtain ⟨hnotMem, hnodup⟩ := List.nodup_cons.1 (hperm.nodup_iff.2 h.nodup)
  -- The buckets that are left have keys of other ids, which are not freed.
  have hkeycell : ∀ d ∈ idx.withoutEntry id r bs,
      (idx.keys.free r).cell d.key = idx.keys.cell d.key := by
    intro d hd
    obtain ⟨id', _, hl'⟩ := h.head_withoutEntry hl hk hd
    exact h.cell_free_of_erase hl hl'
  obtain ⟨k, hcell, _⟩ := hlive
  refine ⟨sl', by simp [Secondary.dropEntry, hrun, CompoundIndex.freeKey, readKey_of_cell hcell], ?_⟩
  exact
    { cmpFuncs := h.cmpFuncs
      numFuncs := h.numFuncs
      rep := hrep
      sorted := by
        have hsorted : Bucket.Sorted idx.refCmp (idx.withoutEntry id r bs) := h.sorted.delete
        refine List.Pairwise.imp_of_mem ?_ hsorted
        intro a d ha hd had
        show Secondary.refCmp idx.cmpFuncs (idx.keys.free r) a.key d.key < 0
        rwa [refCmp_congr (hkeycell a ha) (hkeycell d hd)]
      nonempty := by
        intro d hd
        obtain ⟨_, _, _, hne, _⟩ := h.vals_withoutEntry hl hk hd
        exact hne
      nodup := hnodup
      mem := by
        intro id'
        rw [Finmap.mem_erase, ← h.mem, ← hperm.mem_iff, List.mem_cons]
        constructor
        · intro hid'
          exact ⟨fun heq => hnotMem (heq ▸ hid'), Or.inr hid'⟩
        · rintro ⟨hid', hmem'⟩
          exact hmem'.resolve_left hid'
      live := by
        intro id' r' hl'
        exact (h.live id' r' (lookup_of_erase hl').2).congr (h.cell_free_of_erase hl hl')
      inj := by
        intro id' id'' r' hl' hl''
        exact h.inj id' id'' r' (lookup_of_erase hl').2 (lookup_of_erase hl'').2
      head := fun d hd => h.head_withoutEntry hl hk hd
      same := by
        intro d hd id' hid' r' hl'
        obtain ⟨b, hb, hkey, _, hsub⟩ := h.vals_withoutEntry hl hk hd
        show Secondary.refCmp idx.cmpFuncs (idx.keys.free r) d.key r' = 0
        rw [refCmp_congr (hkeycell d hd) (h.cell_free_of_erase hl hl'), ← hkey]
        exact h.same b hb id' (hsub id' hid').1 r' (lookup_of_erase hl').2
      length := by
        show idx.length - 1 = _
        rw [h.length, ← hperm.length_eq]
        simp
      unique := by
        intro huniq d hd
        rcases h.mem_withoutEntry hl hk hd with ⟨hdbs, _⟩ | ⟨b, hb, _, _, hnil, hrest⟩
        · exact h.unique huniq d hdbs
        · -- A bucket of one id is gone with it.
          obtain ⟨x, hx⟩ := h.unique huniq b hb
          have hlen := hrest.length_eq
          simp only [hx, List.length_cons, List.length_nil, Nat.add_eq_right] at hlen
          exact absurd (List.length_eq_zero_iff.1 hlen) hnil }

theorem notMem_allVals (h : IndexInv idx bs) (hid : id ∉ idx.ri) : id ∉ Bucket.allVals bs :=
  fun hmem => hid ((h.mem id).1 hmem)

/-- No bucket has a value that `valcmp` takes for a new id. -/
theorem any_strcmp_eq_false (h : IndexInv idx bs) (hid : id ∉ idx.ri) {b : Bucket KeyRef SIId}
    (hb : b ∈ bs) : b.vals.any (fun x => decide (strcmp x id = 0)) = false := by
  simp only [List.any_eq_false, decide_eq_true_eq, strcmp_eq_zero]
  rintro x hx rfl
  exact h.notMem_allVals hid (Bucket.mem_allVals.2 ⟨b, hb, hx⟩)

/-- The ids are the old ones and the one that comes. -/
theorem allVals_withEntry (h : IndexInv idx bs) (hid : id ∉ idx.ri) :
    (Bucket.allVals (idx.withEntry id r bs)).Perm (id :: Bucket.allVals bs) :=
  Bucket.insert_allVals_perm rfl fun _ hb _ => h.any_strcmp_eq_false hid hb

section WithEntry

variable {d : Bucket KeyRef SIId}

/-- The buckets: the new one, the old ones, and an old one that `id` has joined. -/
theorem mem_withEntry (h : IndexInv idx bs) (hid : id ∉ idx.ri)
    (hd : d ∈ idx.withEntry id r bs) :
    (d = newBucket idx.sl r id ∨ d ∈ bs) ∨
      ∃ b ∈ bs, idx.refCmp b.key r = 0 ∧ d = { b with vals := b.vals ++ [id] } := by
  rcases Bucket.mem_insert hd with rfl | hd | ⟨b, hb, hzero, rfl⟩
  · exact Or.inl (Or.inl rfl)
  · exact Or.inl (Or.inr hd)
  · refine Or.inr ⟨b, hb, hzero, ?_⟩
    simp [appendNew, h.any_strcmp_eq_false hid hb]

/-- The key of each bucket is the key of the first of its ids: of the new one, or of an old one. -/
theorem head_withEntry (h : IndexInv idx bs) (hid : id ∉ idx.ri)
    (hd : d ∈ idx.withEntry id r bs) :
    ∃ id', d.vals.head? = some id' ∧ (idx.ri.insert id r).lookup id' = some d.key := by
  rcases h.mem_withEntry hid hd with (rfl | hd) | ⟨b, hb, _, rfl⟩
  · exact ⟨id, rfl, Finmap.lookup_insert _⟩
  · obtain ⟨id', hid', hl'⟩ := h.head d hd
    exact ⟨id', hid', lookup_insert_of_lookup hid hl'⟩
  · obtain ⟨id', hid', hl'⟩ := h.head b hb
    refine ⟨id', ?_, lookup_insert_of_lookup hid hl'⟩
    obtain ⟨rest, hvals⟩ := List.head?_eq_some_iff.1 hid'
    simp [hvals]

/-- The keys of the ids of a bucket compare equal to the bucket's. -/
theorem same_withEntry (h : IndexInv idx bs) (hid : id ∉ idx.ri) (hlive : idx.KeyLive r)
    (hd : d ∈ idx.withEntry id r bs) {id' : SIId} {r' : KeyRef} (hid' : id' ∈ d.vals)
    (hl' : (idx.ri.insert id r).lookup id' = some r') : idx.refCmp d.key r' = 0 := by
  have hnotMem := h.notMem_allVals hid
  rcases lookup_of_insert hl' with ⟨rfl, rfl⟩ | ⟨hne, hlookup⟩
  · -- The new id is in no old bucket: it has made one, or joined one whose key compares equal.
    rcases h.mem_withEntry hid hd with (rfl | hd) | ⟨b, _, hzero, rfl⟩
    · exact h.preorder.refl hlive
    · exact absurd (Bucket.mem_allVals.2 ⟨d, hd, hid'⟩) hnotMem
    · exact hzero
  · rcases h.mem_withEntry hid hd with (rfl | hd) | ⟨b, hb, _, rfl⟩
    · exact absurd (List.mem_singleton.1 hid') hne
    · exact h.same d hd id' hid' r' hlookup
    · have hold : id' ∈ b.vals :=
        (List.mem_append.1 hid').resolve_right fun hnew => hne (List.mem_singleton.1 hnew)
      exact h.same b hb id' hold r' hlookup

end WithEntry

/-- Storing a new id under a live key that no other id has. -/
theorem storeEntry (h : IndexInv idx bs) (hid : id ∉ idx.ri) (hlive : idx.KeyLive r)
    (hown : ∀ id', idx.ri.lookup id' ≠ some r)
    (huniq : idx.spec.isUnique = true → ∀ b ∈ bs, idx.refCmp b.key r ≠ 0) (level : Level) :
    ∃ sl', storeEntry idx id r level =
        .ok { idx with sl := sl', ri := idx.ri.insert id r, length := idx.length + 1 } ∧
      IndexInv { idx with sl := sl', ri := idx.ri.insert id r, length := idx.length + 1 }
        (idx.withEntry id r bs) := by
  obtain ⟨sl', hrun, hrep⟩ :=
    h.rep.insert (h.compares hlive) (h.position hlive) strcmp id level
  -- The new id joins the node of its tuple, or gets one between its neighbours.
  have hperm := h.allVals_withEntry (r := r) hid
  refine ⟨sl', by simp [Secondary.storeEntry, hrun], ?_⟩
  exact
    { cmpFuncs := h.cmpFuncs
      numFuncs := h.numFuncs
      rep := hrep
      sorted := h.sorted.insert h.preorder (fun _ hb => h.key_live hb) hlive rfl
      nonempty := by
        intro d hd
        rcases h.mem_withEntry hid hd with (rfl | hd) | ⟨b, _, _, rfl⟩
        · simp [newBucket]
        · exact h.nonempty d hd
        · simp
      nodup := hperm.nodup_iff.2 (List.nodup_cons.2 ⟨h.notMem_allVals hid, h.nodup⟩)
      mem := by
        intro id'
        rw [hperm.mem_iff, List.mem_cons, Finmap.mem_insert, h.mem]
      live := by
        intro id' r' hl'
        rcases lookup_of_insert hl' with ⟨_, rfl⟩ | ⟨_, hlookup⟩
        · exact hlive
        · exact h.live id' r' hlookup
      inj := by
        intro id' id'' r' hl' hl''
        -- No other id has the tuple of the new one.
        rcases lookup_of_insert hl' with ⟨rfl, rfl⟩ | ⟨_, hlookup'⟩
        · rcases lookup_of_insert hl'' with ⟨rfl, _⟩ | ⟨_, hlookup''⟩
          · rfl
          · exact absurd hlookup'' (hown id'')
        · rcases lookup_of_insert hl'' with ⟨_, rfl⟩ | ⟨_, hlookup''⟩
          · exact absurd hlookup' (hown id')
          · exact h.inj id' id'' r' hlookup' hlookup''
      head := fun d hd => h.head_withEntry hid hd
      same := fun d hd id' hid' r' hl' => h.same_withEntry hid hlive hd hid' hl'
      length := by
        show idx.length + 1 = _
        rw [h.length, hperm.length_eq]
        rfl
      unique := by
        intro hu d hd
        rcases h.mem_withEntry hid hd with (rfl | hd) | ⟨b, hb, hzero, rfl⟩
        · exact ⟨id, rfl⟩
        · exact h.unique hu d hd
        · exact absurd hzero (huniq hu b hb) }

theorem newMultiKey (h : IndexInv idx bs) {vals : List SIValue}
    (hvals : KeyOk idx.spec.types vals) : siNewMultiKey vals vals.length = .ok vals := by
  have hlen : vals.length % 256 = vals.length := by
    have := idx.numFuncs.toNat_lt
    have := h.numFuncs
    have := hvals.length_eq
    omega
  simp [siNewMultiKey, hlen]

/-- A tuple that is in use stays where it is when another one is allocated. -/
theorem cell_alloc (h : IndexInv idx bs) (vals : SIMultiKey) {id' : SIId} {r' : KeyRef}
    (hl : idx.ri.lookup id' = some r') : (idx.keys.alloc vals).cell r' = idx.keys.cell r' := by
  obtain ⟨k, hk, _⟩ := h.live id' r' hl
  rw [hk]
  exact Store.cell_alloc_of_some hk vals

/-- A new tuple gets a reference that nothing uses. -/
theorem allocKey (h : IndexInv idx bs) {vals : List SIValue} (hvals : KeyOk idx.spec.types vals) :
    allocKey idx vals = .ok ({ idx with keys := idx.keys.alloc vals }, idx.keys.next) ∧
      IndexInv { idx with keys := idx.keys.alloc vals } bs ∧
      ({ idx with keys := idx.keys.alloc vals } : CompoundIndex).KeyLive idx.keys.next ∧
      ∀ id', idx.ri.lookup id' ≠ some idx.keys.next := by
  refine ⟨?_, h.withKeys fun id' r' hl' => h.cell_alloc vals hl',
    ⟨vals, Store.cell_alloc_self _ _, hvals⟩, ?_⟩
  · simp [Secondary.allocKey, h.newMultiKey hvals]
  · intro id' hl'
    obtain ⟨k, hk, _⟩ := h.live id' _ hl'
    exact Store.ne_next hk rfl

/-- Freeing a tuple that the reverse index does not hold. -/
theorem freeKey (h : IndexInv idx bs) (hlive : idx.KeyLive r)
    (hown : ∀ id', idx.ri.lookup id' ≠ some r) :
    idx.freeKey r = .ok { idx with keys := idx.keys.free r } ∧
      IndexInv { idx with keys := idx.keys.free r } bs := by
  obtain ⟨k, hk, _⟩ := hlive
  refine ⟨by simp [CompoundIndex.freeKey, readKey_of_cell hk], h.withKeys ?_⟩
  intro id' r' hl'
  refine Store.cell_free_of_ne idx.keys ?_
  rintro rfl
  exact hown id' hl'

end IndexInv

end Secondary
