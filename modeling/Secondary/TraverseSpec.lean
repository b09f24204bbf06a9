import Secondary.FindSpec

/-!
# TraverseSpec — what the visitor of `compoundIndex_Traverse` gets

At every position of the iterator the visitor is called for all ids of the node, and the iterator
has one position for each id.  So a node with `m` ids is visited `m` times, with `m` calls each.
-/

namespace Secondary

open Lib

/-- The calls for a bucket whose node holds `vals`: all of them, for each value still to come. -/
def visitsOf (key : KeyRef) (vals pending : List SIId) : List (SIId × Option KeyRef) :=
  pending.flatMap fun _ => vals.map fun id => (id, some key)

/-- The calls for all nodes. -/
def visits (bs : List (Bucket KeyRef SIId)) : List (SIId × Option KeyRef) :=
  bs.flatMap fun b => visitsOf b.key b.vals b.vals

theorem length_visitsOf (key : KeyRef) (vals pending : List SIId) :
    (visitsOf key vals pending).length = pending.length * vals.length := by
  simp [visitsOf, List.length_flatMap, List.map_const', List.sum_replicate]

/-- Where every node holds one id, each is visited once. -/
theorem visits_of_single {bs : List (Bucket KeyRef SIId)} (h : ∀ b ∈ bs, ∃ id, b.vals = [id]) :
    visits bs = bs.flatMap fun b => b.vals.map fun id => (id, some b.key) := by
  refine List.flatMap_congr fun b hb => ?_
  obtain ⟨id, hid⟩ := h b hb
  simp [visitsOf, hid]

/-- A node with more than one id has more calls than ids. -/
theorem length_visits (bs : List (Bucket KeyRef SIId)) (hvals : ∀ b ∈ bs, b.vals ≠ []) :
    (Bucket.allVals bs).length ≤ (visits bs).length ∧
      ((visits bs).length = (Bucket.allVals bs).length → ∀ b ∈ bs, ∃ id, b.vals = [id]) := by
  induction bs with
  | nil => simp [visits]
  | cons b bs ih =>
      obtain ⟨hle, heq⟩ := ih fun d hd => hvals d (List.mem_cons_of_mem _ hd)
      have hcons : (visits (b :: bs)).length =
          b.vals.length * b.vals.length + (visits bs).length := by
        simp [visits, List.flatMap_cons, length_visitsOf]
      have hall : (Bucket.allVals (b :: bs)).length =
          b.vals.length + (Bucket.allVals bs).length := by simp
      have hpos : 1 ≤ b.vals.length := List.length_pos_iff.2 (hvals b (by simp))
      have hsq : b.vals.length ≤ b.vals.length * b.vals.length := Nat.le_mul_of_pos_left _ hpos
      refine ⟨by omega, fun hlen d hd => ?_⟩
      rcases List.mem_cons.1 hd with rfl | hd
      · have hone : d.vals.length = 1 := by
          have : d.vals.length * d.vals.length = 1 * d.vals.length := by omega
          exact Nat.eq_of_mul_eq_mul_right hpos this
        exact List.length_eq_one_iff.1 hone
      · exact heq (by omega) d hd

/-! ## Walking -/

section Walk

variable {idx : CompoundIndex} {bs pending : List (Bucket KeyRef SIId)} {α : Type}

/-- What a walk does at all nodes: the same at each position of the iterator. -/
def walked (visit : List SIId → Option KeyRef → List α) (bs : List (Bucket KeyRef SIId)) : List α :=
  bs.flatMap fun b => b.vals.flatMap fun _ => visit b.vals (some b.key)

/-- What a walk has still to do. -/
def pendingWalk (idx : CompoundIndex) (visit : List SIId → Option KeyRef → List α)
    (pending : List (Bucket KeyRef SIId)) : List α :=
  pending.flatMap fun b =>
    b.vals.flatMap fun _ => visit ((idx.sl.nodes.valsAt? b.tag).getD []) (some b.key)

theorem pendingWalk_self (h : Rep idx.sl bs) (visit : List SIId → Option KeyRef → List α) :
    pendingWalk idx visit bs = walked visit bs := by
  refine List.flatMap_congr fun b hb => ?_
  rw [h.vals b hb, Option.getD_some]

/-- One position of the iterator. -/
theorem pendingWalk_advance (idx : CompoundIndex) (visit : List SIId → Option KeyRef → List α)
    (b : Bucket KeyRef SIId) (cs : List (Bucket KeyRef SIId)) (hb : b.vals ≠ []) :
    pendingWalk idx visit (b :: cs) =
      visit ((idx.sl.nodes.valsAt? b.tag).getD []) (some b.key) ++
        pendingWalk idx visit (advance (b :: cs)) := by
  cases hvals : b.vals with
  | nil => exact absurd hvals hb
  | cons v vs =>
      cases vs with
      | nil => simp [pendingWalk, advance, hvals]
      | cons w vs => simp [pendingWalk, advance, hvals]

theorem walkLoop_spec (h : Rep idx.sl bs) (hvals : ∀ b ∈ bs, b.vals ≠ [])
    (visit : List SIId → Option KeyRef → List α) :
    ∀ (fuel : Nat) (it : SkiplistIterator SIMultiKey) (pending : List (Bucket KeyRef SIId)),
      IterAt bs (fun _ => false) it pending → it.rangeMax = none →
      (Bucket.allVals pending).length < fuel →
      walkLoop idx visit fuel it = .ok (pendingWalk idx visit pending)
  | 0, _, _, _, _, hfuel => absurd hfuel (Nat.not_lt_zero _)
  | fuel + 1, it, pending, hit, hmax, hfuel => by
      have hclip : ClipsAt idx.compareBound it.rangeMax it.maxExclusive (fun _ => false) bs := by
        rw [hmax]
        exact fun _ _ => rfl
      obtain ⟨it', hnext, hmax', _, hit'⟩ := h.iteratorNext hvals hclip hit
      have hrest := walkLoop_spec h hvals visit fuel it' (advance pending) hit'
        (hmax'.trans hmax)
      cases hit with
      | done current => simp [walkLoop, current, pendingWalk]
      | «at» as b cs split current offset _ =>
          subst split
          have hne : b.vals.drop it.currentValOffset ≠ [] := by
            intro hnil
            have := List.drop_eq_nil_iff.1 hnil
            omega
          obtain ⟨n, hn, hnvals⟩ := Nodes.cell_of_valsAt? (h.vals b (by simp))
          have hobj : n.obj = some b.key := by
            have := h.obj b (by simp)
            rwa [Nodes.objAt?, hn] at this
          -- One value less is left, which is what the fuel counts.
          have hlen := length_allVals_advance
            (b := { b with vals := b.vals.drop it.currentValOffset })
            (cs.takeWhile fun _ => !false) hne
          have hadv := pendingWalk_advance idx visit
            { b with vals := b.vals.drop it.currentValOffset } (cs.takeWhile fun _ => !false) hne
          simp only [h.vals b (by simp), Option.getD_some] at hadv
          rw [hadv]
          simp [walkLoop, current, Nodes.node, hn, hnext, hrest (by omega), hnvals, hobj]

/-- The walk starts at the header, which holds nothing, and goes on to the first node. -/
theorem walk_spec (h : Rep idx.sl bs) (hvals : ∀ b ∈ bs, b.vals ≠ [])
    {visit : List SIId → Option KeyRef → List α}
    (hheader : visit [] (idx.sl.nodes.objAt? idx.sl.header) = []) :
    walkLoop idx visit (idx.sl.nodes.numValues + 2) (skiplistIterateAll idx.sl) =
      .ok (walked visit bs) := by
  obtain ⟨n, hn, hnvals⟩ := Nodes.cell_of_valsAt? h.header_vals
  obtain ⟨l, hl, hf⟩ := h.linked.header_next
  obtain ⟨it₁, hit₁⟩ : ∃ it₁ : SkiplistIterator SIMultiKey,
      it₁ = { skiplistIterateAll idx.sl with current := l.forward } := ⟨_, rfl⟩
  have hnext : skiplistIteratorNext idx.compareBound idx.sl (skiplistIterateAll idx.sl) =
      .ok (it₁, none) := by
    simp [skiplistIteratorNext, skiplistIterateAll, Nodes.node, hn, hnvals,
      Nodes.levelAt_of_some hl, clipNode, hit₁]
  have htake : bs.takeWhile (fun _ => !false) = bs := by simp
  have hat : IterAt bs (fun _ => false) it₁ (bs.takeWhile fun _ => !false) := by
    refine IterAt.of_suffix (show bs = [] ++ bs from rfl) hvals ?_ ?_
    · rw [htake, hit₁]
      simpa using hf
    · rw [hit₁]
      rfl
  rw [htake] at hat
  have hrest := walkLoop_spec h hvals visit (idx.sl.nodes.numValues + 1) it₁ bs hat
    (by rw [hit₁]; rfl) (Nat.lt_succ_of_le (length_allVals_le h))
  rw [pendingWalk_self h] at hrest
  have hcurrent : (skiplistIterateAll (O := SIMultiKey) idx.sl).current = some idx.sl.header := rfl
  have hempty : visit [] n.obj = [] := by rwa [Nodes.objAt?, hn] at hheader
  rw [walkLoop]
  simp [hcurrent, Nodes.node, hn, hnext, hrest, hnvals, hempty]

theorem compoundIndexTraverse_spec (h : Rep idx.sl bs) (hvals : ∀ b ∈ bs, b.vals ≠ []) :
    compoundIndexTraverse idx = .ok (visits bs) := by
  rw [compoundIndexTraverse]
  exact walk_spec h hvals rfl

/-- The header has no key, so the walk frees nothing there. -/
theorem compoundIndexFree_spec (h : Rep idx.sl bs) (hvals : ∀ b ∈ bs, b.vals ≠ []) :
    compoundIndexFree idx = .ok (walked freeNode bs) := by
  have hheader : idx.sl.nodes.objAt? idx.sl.header = none := by
    cases hobj : idx.sl.nodes.objAt? idx.sl.header with
    | none => rfl
    | some k =>
        obtain ⟨b, hb, htag⟩ := h.only _ _ hobj
        have hmem : idx.sl.header ∈ bs.map Bucket.tag := htag ▸ List.mem_map_of_mem hb
        exact absurd hmem (List.nodup_cons.1 h.linked.nodup).1
  exact walk_spec h hvals (by rw [hheader]; rfl)

end Walk

/-! ## Once -/

/-- Every id with the key of its node. -/
def entries (bs : List (Bucket KeyRef SIId)) : List (SIId × Option KeyRef) :=
  bs.flatMap fun b => b.vals.map fun id => (id, some b.key)

/-- Every id and the key of every node. -/
def owned (bs : List (Bucket KeyRef SIId)) : List Freed :=
  bs.flatMap fun b => freeNode b.vals (some b.key)

theorem length_entries (bs : List (Bucket KeyRef SIId)) :
    (entries bs).length = (Bucket.allVals bs).length := by
  simp [entries, Bucket.allVals, List.length_flatMap]

/-- Where every node holds one id, a walk does its work once at each node. -/
theorem walked_of_single {α : Type} (visit : List SIId → Option KeyRef → List α)
    {bs : List (Bucket KeyRef SIId)} (h : ∀ b ∈ bs, ∃ id, b.vals = [id]) :
    walked visit bs = bs.flatMap fun b => visit b.vals (some b.key) := by
  refine List.flatMap_congr fun b hb => ?_
  obtain ⟨id, hid⟩ := h b hb
  simp [hid]

/-- Where no key was shared when it was dropped, both full walks handle every entry exactly once if
and only if no two ids have tuples that compare equal. -/
theorem fullWalks_once_iff {spec : SISpec} {idx₀ idx : CompoundIndex}
    (hnew : siNewCompoundIndex spec = .ok idx₀) (css : List (List (SIChange × Level)))
    (htyped : ∀ cs ∈ css, Typed spec cs)
    (hkeys : spec.isUnique = true ∨ Every applyStep KeysNotShared idx₀ css)
    (hrun : run applyStep idx₀ css = .ok idx) :
    ∃ bs calls frees, Rep idx.sl bs ∧ (Bucket.allVals bs).Nodup ∧
      (∀ id, id ∈ Bucket.allVals bs ↔ ∃ k, idx.content id = some k) ∧
      compoundIndexTraverse idx = .ok calls ∧ compoundIndexFree idx = .ok frees ∧
      ((calls.Perm (entries bs) ∧ calls.length = compoundIndexLen idx ∧ frees.Perm (owned bs)) ↔
        idx.NoEqualTuples) := by
  obtain ⟨idx', hrun', ⟨_, bs, h⟩, _, _⟩ := (stands_new hnew).run htyped hkeys
  obtain rfl : idx = idx' := Except.ok.inj (hrun.symm.trans hrun')
  refine ⟨bs, _, _, h.rep, h.nodup, fun id => (h.mem id).trans h.exists_content,
    compoundIndexTraverse_spec h.rep h.nonempty, compoundIndexFree_spec h.rep h.nonempty, ?_⟩
  rw [h.single_iff]
  constructor
  · rintro ⟨hperm, _, _⟩
    -- A node of several ids would make more calls than there are ids.
    have hlen := hperm.length_eq
    rw [length_entries] at hlen
    exact (length_visits bs h.nonempty).2 hlen
  · intro hsingle
    have hvisits : visits bs = entries bs := visits_of_single hsingle
    refine ⟨.of_eq hvisits, ?_, .of_eq (walked_of_single freeNode hsingle)⟩
    rw [hvisits, length_entries, compoundIndexLen, h.length]

/-- Two ids with tuples of their own. -/
theorem fullWalks_once_iff_int :
    ∃ idx₀ idx, siNewCompoundIndex (oneColumn .int32 0) = .ok idx₀ ∧
      run applyStep idx₀ [[add idA (.int32 1), add idB (.int32 2)]] = .ok idx ∧
      ∃ bs calls frees, Rep idx.sl bs ∧ (Bucket.allVals bs).Nodup ∧
        (∀ id, id ∈ Bucket.allVals bs ↔ ∃ k, idx.content id = some k) ∧
        compoundIndexTraverse idx = .ok calls ∧ compoundIndexFree idx = .ok frees ∧
        ((calls.Perm (entries bs) ∧ calls.length = compoundIndexLen idx ∧ frees.Perm (owned bs)) ↔
          idx.NoEqualTuples) :=
  ⟨_, _, rfl, rfl,
    fullWalks_once_iff (show siNewCompoundIndex (oneColumn .int32 0) = .ok _ from rfl)
      [[add idA (.int32 1), add idB (.int32 2)]] (by decide) (Or.inr (by decide +kernel)) rfl⟩

/-- Two ids in one node: the visitor is called four times, and each id and the key are freed
twice. -/
theorem fullWalks_sharedNode_twice :
    ∃ idx₀ idx calls frees, siNewCompoundIndex (oneColumn .int32 0) = .ok idx₀ ∧
      run applyStep idx₀ [[add idA (.int32 1), add idB (.int32 1)]] = .ok idx ∧
      compoundIndexTraverse idx = .ok calls ∧ calls.length ≠ compoundIndexLen idx ∧
      compoundIndexFree idx = .ok frees ∧ frees.count (.id idA) = 2 ∧
      frees.count (.key 0) = 2 :=
  ⟨_, _, _, _, rfl, rfl, rfl, by decide, rfl, by decide, by decide⟩

end Secondary
