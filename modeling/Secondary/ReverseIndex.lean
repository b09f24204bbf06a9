import Secondary.Index
import Secondary.KhashSpec
import Secondary.Lib.Run

/-!
# ReverseIndex — `reverse_index.c`, the khash map from ids to keys

`SIReverseIndex_Insert`, `SIReverseIndex_Exists` and `SIReverseIndex_Delete` work on a khash table
whose keys are C strings.  A table that represents a finite map does so after every operation, and
the operations answer what the map says.  The bound on the number of ids is where the table would
get more than `2 ^ 31` buckets, and sums of slots would overflow.
-/

namespace Secondary

open Lib KHash

/-! ## The table -/

abbrev SIReverseIndex : Type :=
  KHash SIId KeyRef

/-- A `char` that is added to a `khint_t`; `char` is signed. -/
def charWord (c : UInt8) : UInt32 :=
  c.toInt8.toInt32.toUInt32

/-- `__ac_X31_hash_string`.  The first byte of a string that is not empty is not `0`. -/
def acX31HashString (s : SIId) : UInt32 :=
  match s.bytes with
  | [] => 0
  | c :: cs => cs.foldl (fun h c => (h <<< 5) - h + charWord c) (charWord c)

/-- `SI_NewReverseIndex` -/
def siNewReverseIndex : SIReverseIndex :=
  khInit

/-- `SIReverseIndex_Exists`, with what it stores in `v` when it returns `1`. -/
def siReverseIndexExists (ri : SIReverseIndex) (id : SIId) : Exec (Option KeyRef) := do
  let k ← khGet acX31HashString ri id
  if k = ri.nBuckets then
    .ok none
  else
    let v ← ri.vals.read .bounds .unset k
    .ok (some v)

/-- `SIReverseIndex_Insert` -/
def siReverseIndexInsert (ri : SIReverseIndex) (id : SIId) (key : KeyRef) :
    Exec (SIReverseIndex × Int) := do
  let (ri, k, rc) ← khPut acX31HashString ri id
  let vals ← ri.vals.write .bounds k key
  .ok ({ ri with vals := vals }, rc)

/-- `SIReverseIndex_Delete` -/
def siReverseIndexDelete (ri : SIReverseIndex) (id : SIId) : Exec (SIReverseIndex × Int) := do
  let k ← khGet acX31HashString ri id
  if k ≠ ri.nBuckets then
    let ri ← khDel ri k
    .ok (ri, 1)
  else
    .ok (ri, 0)

/-! ## The map -/

/-- The ids of an index and the keys they are stored under. -/
abbrev IdMap : Type :=
  Finmap fun _ : SIId => KeyRef

/-- The table is well formed, and its entries are those of `m`. -/
def Represents (ri : SIReverseIndex) (m : IdMap) : Prop :=
  ∃ s, TableOk acX31HashString ri s ∧
    ∀ id key, m.lookup id = some key ↔ HasEntry ri.nBuckets s id key

/-- The number of ids up to which a table does not get more than `2 ^ 31` buckets. -/
def maxIds : Nat :=
  805306370

section Operations

variable {ri : SIReverseIndex} {m : IdMap}

theorem represents_new : Represents siNewReverseIndex ∅ := by
  refine ⟨fun _ => .empty, ⟨by decide, ⟨?_, ?_, rfl, rfl⟩, ⟨?_, ?_⟩, rfl, rfl, rfl, by decide⟩, ?_⟩
  · exact fun i hi => absurd hi (Nat.not_lt_zero i)
  · exact fun hi => absurd hi (Nat.not_lt_zero _)
  · exact fun hi => absurd hi (Nat.not_lt_zero _)
  · exact fun hi => absurd hi (Nat.not_lt_zero _)
  · intro id key
    simp [HasEntry]

/-- `kh_size` is the number of ids. -/
theorem Represents.size_eq (h : Represents ri m) : ri.size = m.keys.card := by
  obtain ⟨s, ht, hm⟩ := h
  let live := (Finset.range ri.nBuckets).filter fun i => (s i).isLive = true
  have hinj : Set.InjOn (fun i => (s i).key?) live := by
    intro i hi j hj heq
    obtain ⟨hi, hlive⟩ := Finset.mem_filter.1 hi
    obtain ⟨hj, hlive'⟩ := Finset.mem_filter.1 hj
    cases hs : s i <;> simp [hs, Slot.isLive] at hlive
    cases hs' : s j <;> simp [hs', Slot.isLive] at hlive'
    simp only [hs, hs', Slot.key?, Option.some.injEq] at heq
    subst heq
    exact ht.probed.unique (Finset.mem_range.1 hi) (Finset.mem_range.1 hj) hs hs'
  -- Every id has one live slot.
  have himage : live.image (fun i => (s i).key?) = m.keys.map Function.Embedding.some := by
    ext x
    simp only [Finset.mem_image, Finset.mem_map, Function.Embedding.some_apply, Finmap.mem_keys]
    constructor
    · rintro ⟨i, hi, rfl⟩
      obtain ⟨hi, hlive⟩ := Finset.mem_filter.1 hi
      cases hs : s i <;> simp [hs, Slot.isLive] at hlive
      next k v =>
        have hl := (hm k v).2 ⟨i, Finset.mem_range.1 hi, hs⟩
        exact ⟨k, Finmap.mem_iff.2 ⟨v, hl⟩, rfl⟩
    · rintro ⟨k, hk, rfl⟩
      obtain ⟨v, hv⟩ := Finmap.mem_iff.1 hk
      obtain ⟨i, hi, hs⟩ := (hm k v).1 hv
      exact ⟨i, Finset.mem_filter.2 ⟨Finset.mem_range.2 hi, by rw [hs]; rfl⟩, by rw [hs, Slot.key?]⟩
  have hcard : ri.size = live.card := ht.size
  rw [hcard, ← Finset.card_image_of_injOn hinj, himage, Finset.card_map]

theorem Represents.exists_eq (h : Represents ri m) (id : SIId) :
    siReverseIndexExists ri id = .ok (m.lookup id) := by
  obtain ⟨s, ht, hm⟩ := h
  obtain ⟨x, hget, hx⟩ := khGet_spec ht.stores ht.sized ht.probed ht.exists_empty id
  rw [siReverseIndexExists, hget, ok_bind]
  rcases hx with ⟨hlt, key, hlive⟩ | ⟨rfl, habsent⟩
  · rw [if_neg (Nat.ne_of_lt hlt), read_of_cell (ht.stores.entry hlt hlive).2, ok_bind,
      (hm id key).2 ⟨x, hlt, hlive⟩]
  · have hnone : m.lookup id = none := by
      cases hl : m.lookup id with
      | none => rfl
      | some key => exact absurd ((hm id key).1 hl) (habsent key)
    rw [if_pos rfl, hnone]

/-- The result is `0` where the id has a key already. -/
theorem Represents.insert (h : Represents ri m) (hsmall : m.keys.card ≤ maxIds) (id : SIId)
    (key : KeyRef) :
    ∃ ri' rc, siReverseIndexInsert ri id key = .ok (ri', rc) ∧ Represents ri' (m.insert id key) ∧
      (rc = 0 ↔ id ∈ m) := by
  have hsize := h.size_eq
  obtain ⟨s, ht, hm⟩ := h
  have hsmall' : 2 * ri.size < 1610612741 := by
    rw [maxIds] at hsmall
    omega
  obtain ⟨ri', x, rc, hput, hx, hrc, hkeep⟩ := khPut_spec ht hsmall' id
  obtain ⟨s', ht', hholds⟩ := hkeep key
  refine ⟨_, rc, by rw [siReverseIndexInsert, hput, ok_bind]; simp only [write_eq hx, ok_bind],
    ⟨s', ht', ?_⟩, ?_⟩
  · intro id' key'
    show (m.insert id key).lookup id' = some key' ↔ HasEntry ri'.nBuckets s' id' key'
    rw [hholds, ← hm]
    by_cases heq : id' = id
    · subst heq
      simp [eq_comm]
    · rw [Finmap.lookup_insert_of_ne m heq]
      simp [heq]
  · rw [hrc, Finmap.mem_iff]
    exact exists_congr fun v => (hm id v).symm

theorem Represents.delete (h : Represents ri m) (id : SIId) :
    ∃ ri', siReverseIndexDelete ri id = .ok (ri', if id ∈ m then 1 else 0) ∧
      Represents ri' (m.erase id) := by
  obtain ⟨s, ht, hm⟩ := h
  obtain ⟨x, hget, hx⟩ := khGet_spec ht.stores ht.sized ht.probed ht.exists_empty id
  rw [siReverseIndexDelete, hget, ok_bind]
  rcases hx with ⟨hlt, key, hlive⟩ | ⟨rfl, habsent⟩
  · obtain ⟨ri', s', hdel, ht', hn, hholds⟩ := khDel_spec ht hlt hlive
    have hmem : id ∈ m := Finmap.mem_iff.2 ⟨key, (hm id key).2 ⟨x, hlt, hlive⟩⟩
    refine ⟨ri', by rw [if_pos (Nat.ne_of_lt hlt), hdel, ok_bind, if_pos hmem], s', ht', ?_⟩
    intro id' key'
    rw [hn, hholds, ← hm]
    by_cases heq : id' = id
    · subst heq
      simp
    · rw [Finmap.lookup_erase_ne heq]
      simp [heq]
  · have hno : id ∉ m := by
      rw [Finmap.mem_iff]
      rintro ⟨key, hkey⟩
      exact habsent key ((hm id key).1 hkey)
    refine ⟨ri, by rw [if_neg (by simp), if_neg hno], s, ht, ?_⟩
    intro id' key'
    rw [← hm]
    by_cases heq : id' = id
    · subst heq
      rw [Finmap.lookup_erase, Finmap.lookup_eq_none.2 hno]
    · rw [Finmap.lookup_erase_ne heq]

end Operations

/-! ## Runs -/

inductive RiOp
  | find (id : SIId)
  | insert (id : SIId) (key : KeyRef)
  | delete (id : SIId)

def RiOp.id : RiOp → SIId
  | .find id => id
  | .insert id _ => id
  | .delete id => id

/-- What a caller sees of an operation. -/
inductive RiReply
  | found (key : Option KeyRef)
  /-- Whether `SIReverseIndex_Insert` has returned `0`. -/
  | inserted (present : Bool)
  | deleted (rc : Int)
  deriving DecidableEq

/-- One operation on the table; its reply goes to the end of the replies. -/
def riStep (st : SIReverseIndex × List RiReply) : RiOp → Exec (SIReverseIndex × List RiReply)
  | .find id => do
      let v ← siReverseIndexExists st.1 id
      .ok (st.1, st.2 ++ [.found v])
  | .insert id key => do
      let r ← siReverseIndexInsert st.1 id key
      .ok (r.1, st.2 ++ [.inserted (r.2 = 0)])
  | .delete id => do
      let r ← siReverseIndexDelete st.1 id
      .ok (r.1, st.2 ++ [.deleted r.2])

/-- The same operation on a finite map. -/
def mapStep (st : IdMap × List RiReply) : RiOp → IdMap × List RiReply
  | .find id => (st.1, st.2 ++ [.found (st.1.lookup id)])
  | .insert id key => (st.1.insert id key, st.2 ++ [.inserted (id ∈ st.1)])
  | .delete id => (st.1.erase id, st.2 ++ [.deleted (if id ∈ st.1 then 1 else 0)])

section Keys

variable {m : IdMap} {ids : Finset SIId} {id : SIId}

theorem keys_insert_subset (h : m.keys ⊆ ids) (hid : id ∈ ids) (key : KeyRef) :
    (m.insert id key).keys ⊆ ids := by
  intro id' hmem
  rcases Finmap.mem_insert.1 (Finmap.mem_keys.1 hmem) with rfl | hold
  · exact hid
  · exact h (Finmap.mem_keys.2 hold)

theorem keys_erase_subset (h : m.keys ⊆ ids) (id : SIId) : (m.erase id).keys ⊆ ids := by
  intro id' hmem
  exact h (Finmap.mem_keys.2 (Finmap.mem_erase.1 (Finmap.mem_keys.1 hmem)).2)

end Keys

/-- The table stands for the map, its ids are among `ids`, and the callers have seen the same. -/
structure SameReplies (ids : Finset SIId) (st : SIReverseIndex × List RiReply)
    (mt : IdMap × List RiReply) : Prop where
  table : Represents st.1 mt.1
  among : mt.1.keys ⊆ ids
  replies : st.2 = mt.2

theorem riStep_spec {ids : Finset SIId} (hsmall : ids.card ≤ maxIds)
    (st : SIReverseIndex × List RiReply) (mt : IdMap × List RiReply) (op : RiOp)
    (h : SameReplies ids st mt) (hid : op.id ∈ ids) :
    ∃ st', riStep st op = .ok st' ∧ SameReplies ids st' (mapStep mt op) := by
  obtain ⟨htable, hamong, hreplies⟩ := h
  cases op with
  | find id =>
      refine ⟨(st.1, st.2 ++ [.found (mt.1.lookup id)]), ?_, htable, hamong, ?_⟩
      · rw [riStep, htable.exists_eq id, ok_bind]
      · rw [mapStep, hreplies]
  | insert id key =>
      have hcard : mt.1.keys.card ≤ maxIds := (Finset.card_le_card hamong).trans hsmall
      obtain ⟨ri', rc, hins, htable', hrc⟩ := htable.insert hcard id key
      refine ⟨(ri', st.2 ++ [.inserted (rc = 0)]), ?_, htable',
        keys_insert_subset hamong hid key, ?_⟩
      · rw [riStep, hins, ok_bind]
      · simp only [mapStep, hreplies, hrc]
  | delete id =>
      obtain ⟨ri', hdel, htable'⟩ := htable.delete id
      refine ⟨(ri', st.2 ++ [.deleted (if id ∈ mt.1 then 1 else 0)]), ?_, htable',
        keys_erase_subset hamong id, ?_⟩
      · rw [riStep, hdel, ok_bind]
      · rw [mapStep, hreplies]

/-- A table that starts out empty answers every sequence of operations as a finite map does, as
long as they are about at most `maxIds` ids: a bucket is never missed, and none is read that has not
been written. -/
theorem run_reverseIndex (ops : List RiOp) (hsmall : (ops.map RiOp.id).toFinset.card ≤ maxIds) :
    ∃ ri, run riStep (siNewReverseIndex, []) ops = .ok (ri, (ops.foldl mapStep (∅, [])).2) ∧
      Represents ri (ops.foldl mapStep (∅, [])).1 ∧
      ri.size = (ops.foldl mapStep (∅, [])).1.keys.card := by
  have hevery : Every riStep (fun _ op => op.id ∈ (ops.map RiOp.id).toFinset)
      (siNewReverseIndex, []) ops := by
    apply every_of_mem
    intro op hop _
    exact List.mem_toFinset.2 (List.mem_map_of_mem hop)
  have hinit : SameReplies (ops.map RiOp.id).toFinset (siNewReverseIndex, []) (∅, []) :=
    ⟨represents_new, by simp, rfl⟩
  obtain ⟨⟨ri, replies⟩, hrun, hsame⟩ := run_of_simulation _ mapStep
    (fun st mt op h hid => riStep_spec hsmall st mt op h hid) ops _ _ hinit hevery
  have hreplies : replies = (ops.foldl mapStep (∅, [])).2 := hsame.replies
  exact ⟨ri, by rw [hrun, hreplies], hsame.table, hsame.table.size_eq⟩

/-- An id is stored, stored again under another key, and deleted. -/
theorem run_reverseIndex_replaced :
    ∃ (id : SIId) (ri : SIReverseIndex),
      run riStep (siNewReverseIndex, [])
          [.insert id 0, .insert id 1, .find id, .delete id, .find id] =
        .ok (ri, [.inserted false, .inserted true, .found (some 1), .deleted 1, .found none]) := by
  let id : SIId := ⟨[97], by decide⟩
  obtain ⟨ri, hrun, _⟩ := run_reverseIndex
    [.insert id 0, .insert id 1, .find id, .delete id, .find id] (by decide)
  refine ⟨id, ri, hrun.trans ?_⟩
  simp [mapStep, Finmap.notMem_empty]

end Secondary
