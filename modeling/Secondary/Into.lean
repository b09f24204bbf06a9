import Secondary.Selected
import Secondary.Skiplist.Memory

/-!
# Into — changing an index while a cursor goes through it

The loop of `IDX.INTO ... WHERE ...` changes the entry of each id that the cursor returns before it
calls `Next` again.  Where the entry has a node of its own, the change leaves all other nodes and
their keys in place, also the one that the cursor stands at, so what is still to be scanned stays
the same.
-/

namespace Secondary

open Lib

/-! ## The loop -/

/-- `while (NULL != (id = tx.ids(tx.ctx)))`: in round `n`, `cmd n` is done to the index for the id
that `Next` returns. -/
inductive Into (cmd : Nat → SIId → CompoundIndex → Exec CompoundIndex) :
    Nat → CompoundIndex → CiScanCtx → List SIId → CompoundIndex → Prop
  | done {n : Nat} {idx : CompoundIndex} {sc sc' : CiScanCtx}
      (next : scanNext idx sc = .ok (sc', none)) : Into cmd n idx sc [] idx
  | next {n : Nat} {idx idx₁ idx' : CompoundIndex} {sc sc' : CiScanCtx} {id : SIId}
      {ids : List SIId} (next : scanNext idx sc = .ok (sc', some id))
      (command : cmd n id idx = .ok idx₁) (rest : Into cmd (n + 1) idx₁ sc' ids idx') :
      Into cmd n idx sc (id :: ids) idx'

/-- From round `n` the loop gets to round `n'`. -/
inductive Reaches (cmd : Nat → SIId → CompoundIndex → Exec CompoundIndex) :
    Nat → CompoundIndex → CiScanCtx → Nat → CompoundIndex → CiScanCtx → Prop
  | refl (n : Nat) (idx : CompoundIndex) (sc : CiScanCtx) : Reaches cmd n idx sc n idx sc
  | next {n n' : Nat} {idx idx₁ idx' : CompoundIndex} {sc sc₁ sc' : CiScanCtx} {id : SIId}
      (next : scanNext idx sc = .ok (sc₁, some id)) (command : cmd n id idx = .ok idx₁)
      (rest : Reaches cmd (n + 1) idx₁ sc₁ n' idx' sc') : Reaches cmd n idx sc n' idx' sc'

/-- The loop has one outcome. -/
theorem Into.unique {cmd : Nat → SIId → CompoundIndex → Exec CompoundIndex} {n : Nat}
    {idx idx' idx'' : CompoundIndex} {sc : CiScanCtx} {ids ids' : List SIId}
    (h : Into cmd n idx sc ids idx') (h' : Into cmd n idx sc ids' idx'') :
    ids = ids' ∧ idx' = idx'' := by
  induction h generalizing ids' with
  | done next =>
      cases h' with
      | done _ => exact ⟨rfl, rfl⟩
      | next next' _ _ => simp [next] at next'
  | next next command _ ih =>
      cases h' with
      | done next' => simp [next] at next'
      | next next' command' rest' =>
          rw [next, Except.ok.injEq, Prod.mk.injEq, Option.some.injEq] at next'
          obtain ⟨rfl, rfl⟩ := next'
          rw [command, Except.ok.injEq] at command'
          subst command'
          obtain ⟨rfl, rfl⟩ := ih rest'
          exact ⟨rfl, rfl⟩

/-- A DEL change of the id. -/
def deleteCommand (draw : Nat → Level) (n : Nat) (id : SIId) (idx : CompoundIndex) :
    Exec CompoundIndex :=
  applyStep idx [({ type := .chDel, id := id, v := [] }, draw n)]

/-- An ADD change of the id with its updated tuple. -/
def updateCommand (update : SIMultiKey → SIMultiKey) (draw : Nat → Level) (n : Nat) (id : SIId)
    (idx : CompoundIndex) : Exec CompoundIndex := do
  let k ← orFault (idx.content id) .null
  applyStep idx [({ type := .chAdd, id := id, v := update k }, draw n)]

/-! ## Nodes that stay -/

section Nodes

variable {idx idx' : CompoundIndex} {bs : List (Bucket KeyRef SIId)} {b : Bucket KeyRef SIId}
  {id : SIId} {r : KeyRef}

/-- A node that does not hold the id keeps its key when the id's entry is dropped. -/
theorem node_dropEntry (h : IndexInv idx bs) (hl : idx.ri.lookup id = some r)
    (hrun : dropEntry idx id r = .ok idx') (hb : b ∈ bs) (hid : id ∉ b.vals) :
    idx'.sl.nodes.objAt? b.tag = some b.key ∧ idx'.keys.cell b.key = idx.keys.cell b.key := by
  obtain ⟨⟨sl, found⟩, hdelete, hrun⟩ := bind_eq_ok.1 hrun
  obtain ⟨_, hfree, hrun⟩ := bind_eq_ok.1 hrun
  obtain ⟨_, _, hfree⟩ := bind_eq_ok.1 hfree
  obtain rfl := Except.ok.inj hfree
  obtain rfl := Except.ok.inj hrun
  obtain ⟨f, _, hobj⟩ := objAt?_skiplistDelete hdelete
  have hkeep : remainingVals strcmp (some id) b.vals = b.vals := by
    rcases swapRemove_perm (fun x => decide (strcmp id x = 0)) b.vals with
      ⟨hsame, _⟩ | ⟨v, hv, hzero, _⟩
    · exact hsame
    · obtain rfl : id = v := strcmp_eq_zero.1 (of_decide_eq_true hzero)
      exact absurd hv hid
  have hnot : ¬(f = some b.tag ∧ ∃ node, idx.sl.nodes.cell b.tag = some node ∧
      remainingVals strcmp (some id) node.vals = []) := by
    rintro ⟨_, node, hnode, hnil⟩
    obtain ⟨n, hn, hvals⟩ := Nodes.cell_of_valsAt? (h.rep.vals b hb)
    obtain rfl : n = node := Option.some.inj (hn.symm.trans hnode)
    rw [hvals, hkeep] at hnil
    exact h.nonempty b hb hnil
  refine ⟨?_, ?_⟩
  · rw [hobj b.tag, if_neg hnot]
    exact h.rep.obj b hb
  · refine Store.cell_free_of_ne idx.keys ?_
    rintro rfl
    obtain ⟨id', hid', hl'⟩ := h.owner b hb
    exact hid (h.inj id' id b.key hl' hl ▸ hid')

/-- The reverse index is changed by the callers. -/
theorem ri_dropEntry (hrun : dropEntry idx id r = .ok idx') : idx'.ri = idx.ri := by
  obtain ⟨_, _, hrun⟩ := bind_eq_ok.1 hrun
  obtain ⟨_, hfree, hrun⟩ := bind_eq_ok.1 hrun
  obtain ⟨_, _, hfree⟩ := bind_eq_ok.1 hfree
  obtain rfl := Except.ok.inj hfree
  obtain rfl := Except.ok.inj hrun
  rfl

/-- A node keeps its key when another entry is stored. -/
theorem node_storeEntry {level : Level} {x : Nat} {s : KeyRef}
    (hrun : storeEntry idx id r level = .ok idx') (hx : idx.sl.nodes.objAt? x = some s) :
    idx'.sl.nodes.objAt? x = some s ∧ idx'.keys = idx.keys := by
  obtain ⟨sl, hinsert, hrun⟩ := bind_eq_ok.1 hrun
  obtain rfl := Except.ok.inj hrun
  refine ⟨?_, rfl⟩
  rcases objAt?_skiplistInsert hinsert with hobj | hobj
  · rw [hobj, hx]
  · have hne : x ≠ idx.sl.nodes.next := by
      rintro rfl
      obtain ⟨n, hn, _⟩ := Option.bind_eq_some_iff.1 hx
      exact absurd (Store.lt_next hn) (lt_irrefl _)
    rw [hobj, if_neg hne, hx]

theorem ri_storeEntry {level : Level} (hrun : storeEntry idx id r level = .ok idx') :
    idx'.ri = idx.ri.insert id r := by
  obtain ⟨_, _, hrun⟩ := bind_eq_ok.1 hrun
  obtain rfl := Except.ok.inj hrun
  rfl

/-- What a change of one id leaves as it was. -/
structure OthersKept (idx : CompoundIndex) (bs : List (Bucket KeyRef SIId)) (id : SIId)
    (idx' : CompoundIndex) : Prop where
  content : ∀ id', id' ≠ id → idx'.content id' = idx.content id'
  lookup : ∀ id', id' ≠ id → idx'.ri.lookup id' = idx.ri.lookup id'
  node : ∀ b ∈ bs, id ∉ b.vals →
    idx'.sl.nodes.objAt? b.tag = some b.key ∧ idx'.keys.cell b.key = idx.keys.cell b.key

theorem deleteCommand_spec (h : IndexInv idx bs) (hl : idx.ri.lookup id = some r)
    (hk : ∀ b ∈ bs, b.key = r → b.vals = [id]) (draw : Nat → Level) (n : Nat) :
    ∃ idx' bs', deleteCommand draw n id idx = .ok idx' ∧ IndexInv idx' bs' ∧ SameSpec idx idx' ∧
      OthersKept idx bs id idx' ∧ idx'.content id = none := by
  obtain ⟨idx', bs', hrun, hinv, hsame, hcontent⟩ := h.applyDel hl hk
  refine ⟨idx', bs', ?_, hinv, hsame, ?_, by simp [hcontent]⟩
  · simp [deleteCommand, applyStep, compoundIndexApply, compoundIndexApplyChange, hrun]
  · simp only [compoundIndexApplyDel, hl] at hrun
    obtain ⟨idx₁, hdrop, hrun⟩ := bind_eq_ok.1 hrun
    obtain ⟨rfl, _⟩ := Prod.mk.inj (Except.ok.inj hrun)
    refine ⟨fun id' hid' => by simp [hcontent, hid'], fun id' hid' => ?_, fun b hb hid => ?_⟩
    · rw [Finmap.lookup_erase_ne hid', ri_dropEntry hdrop]
    · have hnode := node_dropEntry h hl hdrop hb hid
      exact hnode

theorem updateCommand_spec (h : IndexInv idx bs) (hu : idx.spec.isUnique = false)
    (hl : idx.ri.lookup id = some r) (hk : ∀ b ∈ bs, b.key = r → b.vals = [id]) {k : SIMultiKey}
    (hcontent : idx.content id = some k) {update : SIMultiKey → SIMultiKey}
    (hvals : KeyOk idx.spec.types (update k)) (draw : Nat → Level) (n : Nat) :
    ∃ idx' bs', updateCommand update draw n id idx = .ok idx' ∧ IndexInv idx' bs' ∧
      SameSpec idx idx' ∧ OthersKept idx bs id idx' ∧ idx'.content id = some (update k) := by
  obtain ⟨idx', bs', hrun, hinv, hsame, hcontent'⟩ := h.replaceEntry_none hu hvals
    (fun r' hl' => Option.some.inj (hl.symm.trans hl') ▸ hk) (draw n)
  refine ⟨idx', bs', ?_, hinv, hsame, ?_, by simp [hcontent']⟩
  · simp [updateCommand, hcontent, applyStep, compoundIndexApply, compoundIndexApplyChange,
      compoundIndexApplyAdd, h.numFuncs, hvals.length_eq, hu, hrun]
  · obtain ⟨idx₁, hdrop, hrun⟩ := bind_eq_ok.1 hrun
    obtain ⟨⟨idx₂, r₂⟩, halloc, hrun⟩ := bind_eq_ok.1 hrun
    obtain ⟨idx₃, hstore, hrun⟩ := bind_eq_ok.1 hrun
    obtain ⟨rfl, _⟩ := Prod.mk.inj (Except.ok.inj hrun)
    simp only [dropExisting, hl] at hdrop
    obtain ⟨vals, _, halloc⟩ := bind_eq_ok.1 halloc
    obtain ⟨rfl, _⟩ := Prod.mk.inj (Except.ok.inj halloc)
    refine ⟨fun id' hid' => by simp [hcontent', hid'], fun id' hid' => ?_, fun b hb hid => ?_⟩
    · rw [ri_storeEntry hstore, Finmap.lookup_insert_of_ne _ hid', ← ri_dropEntry hdrop]
    · obtain ⟨hobj, hcell⟩ := node_dropEntry h hl hdrop hb hid
      obtain ⟨hobj', hkeys⟩ := node_storeEntry hstore hobj
      refine ⟨hobj', ?_⟩
      obtain ⟨kb, hkb, _⟩ := h.key_live hb
      rw [hkeys, hkb]
      exact Store.cell_alloc_of_some (hcell.trans hkb) vals

end Nodes

/-! ## The cursor after a node of one id -/

/-- The value that is returned is the one that the iterator stands at. -/
theorem iteratorNext_val {K V O : Type} {compare : K → O → Exec Int} {sl : Skiplist K V}
    {it it' : SkiplistIterator O} {x : Nat} {node : SkiplistNode K V} {ret : Option V}
    (hx : it.current = some x) (hnode : sl.nodes.cell x = some node)
    (hrun : skiplistIteratorNext compare sl it = .ok (it', ret)) :
    ret = node.vals[it.currentValOffset]? := by
  simp only [skiplistIteratorNext, hx, Nodes.node, hnode, orFault_some, ok_bind] at hrun
  by_cases hlast : (if it.currentValOffset < node.vals.length then it.currentValOffset + 1
      else it.currentValOffset) = node.vals.length
  · rw [if_pos hlast] at hrun
    obtain ⟨l, _, hrun⟩ := bind_eq_ok.1 hrun
    obtain ⟨current, _, hrun⟩ := bind_eq_ok.1 hrun
    exact (Prod.mk.inj (Except.ok.inj hrun)).2.symm
  · rw [if_neg hlast] at hrun
    exact (Prod.mk.inj (Except.ok.inj hrun)).2.symm

/-- The iterator leaves a node of one value, for the next node or for none. -/
theorem iteratorNext_single {K V O : Type} {compare : K → O → Exec Int} {sl : Skiplist K V}
    {it it' : SkiplistIterator O} {x : Nat} {node : SkiplistNode K V} {v : V} {ret : Option V}
    (hx : it.current = some x) (hnode : sl.nodes.cell x = some node) (hvals : node.vals = [v])
    (hoffset : it.currentValOffset = 0)
    (hrun : skiplistIteratorNext compare sl it = .ok (it', ret)) :
    it'.currentValOffset = 0 ∧
      ∃ l, sl.nodes.levelAt? x 0 = some l ∧ ∀ y ∈ it'.current, l.forward = some y := by
  simp only [skiplistIteratorNext, hx, Nodes.node, hnode, orFault_some, ok_bind, hvals, hoffset,
    List.length_singleton, Nat.zero_lt_one, if_true, Nat.zero_add] at hrun
  obtain ⟨l, hl, hrun⟩ := bind_eq_ok.1 hrun
  obtain ⟨current, hclip, hrun⟩ := bind_eq_ok.1 hrun
  obtain ⟨rfl, _⟩ := Prod.mk.inj (Except.ok.inj hrun)
  refine ⟨rfl, l, orFault_eq_ok.1 hl, fun y hy => ?_⟩
  obtain rfl : current = some y := hy
  cases hf : l.forward with
  | none => simp [clipNode, hf] at hclip
  | some z =>
      cases hmax : it.rangeMax with
      | none => simpa [clipNode, hf, hmax] using hclip
      | some m =>
          simp only [clipNode, hf, hmax] at hclip
          obtain ⟨k, _, hclip⟩ := bind_eq_ok.1 hclip
          obtain ⟨above, _, hclip⟩ := bind_eq_ok.1 hclip
          cases above with
          | true => simp at hclip
          | false => simpa using hclip

/-- An id is returned where the iterator stands at it, and the iterator is moved on. -/
theorem scanLoop_returned {idx : CompoundIndex} {id : SIId} {sc' : CiScanCtx} :
    ∀ {fuel : Nat} {sc : CiScanCtx}, scanLoop idx fuel sc = .ok (sc', some id) →
      ∃ it it' x k, it.current = some x ∧ idx.sl.nodes.objAt? x = some k ∧
        skiplistIteratorNext idx.compareBound idx.sl it = .ok (it', some id) ∧ sc'.it = some it'
  | 0, _, hrun => by cases hrun
  | fuel + 1, sc, hrun => by
      unfold scanLoop at hrun
      split_ifs at hrun with hrange
      · obtain ⟨it, _, hrun⟩ := bind_eq_ok.1 hrun
        cases hx : it.current with
        | none =>
            rw [hx] at hrun
            obtain ⟨sc₁, _, hrun⟩ := bind_eq_ok.1 hrun
            exact scanLoop_returned hrun
        | some x =>
            rw [hx] at hrun
            obtain ⟨ok, hpass, hrun⟩ := bind_eq_ok.1 hrun
            obtain ⟨k, hk, _⟩ := bind_eq_ok.1 hpass
            obtain ⟨⟨it', ret⟩, hnext, hrun⟩ := bind_eq_ok.1 hrun
            cases ok with
            | true =>
                obtain ⟨rfl, rfl⟩ := Prod.mk.inj (Except.ok.inj hrun)
                exact ⟨it, it', x, k, hx, Nodes.objAt_eq_ok hk, hnext, rfl⟩
            | false => exact scanLoop_returned hrun
      · cases hrun

section Returned

variable {idx : CompoundIndex} {bs : List (Bucket KeyRef SIId)} {b : Bucket KeyRef SIId}
  {id : SIId} {sc sc' : CiScanCtx}

/-- After the only id of a node the cursor stands at the first value of another node. -/
theorem scanNext_single (h : IndexInv idx bs) (hrun : scanNext idx sc = .ok (sc', some id))
    (hb : b ∈ bs) (hone : b.vals = [id]) :
    AtFirstValue sc' ∧
      ∀ it ∈ sc'.it, ∀ y ∈ it.current, ∃ d ∈ bs, d.tag = y ∧ id ∉ d.vals := by
  obtain ⟨it, it', x, k, hx, hk, hnext, hsc'⟩ := scanLoop_returned hrun
  obtain ⟨d, hd, rfl⟩ := h.rep.only x k hk
  obtain ⟨node, hnode, hvals⟩ := Nodes.cell_of_valsAt? (h.rep.vals d hd)
  have hret : some id = d.vals[it.currentValOffset]? := by
    rw [← hvals]
    exact iteratorNext_val hx hnode hnext
  have hid : id ∈ d.vals := List.mem_of_getElem? hret.symm
  -- The value was read at the id's own node, the first and only one there.
  obtain rfl : d = b := by
    obtain ⟨as, cs, hsplit⟩ := List.append_of_mem hb
    by_contra hne
    refine h.id_notMem hsplit (by simp [hone]) ?_ hid
    have hmem : d ∈ as ++ b :: cs := hsplit ▸ hd
    rcases List.mem_append.1 hmem with hmem | hmem
    · exact Or.inl hmem
    · exact Or.inr ((List.mem_cons.1 hmem).resolve_left hne)
  have hoffset : it.currentValOffset = 0 := by
    by_contra hne
    rw [hone, List.getElem?_eq_none_iff.2 (by simp; omega)] at hret
    cases hret
  obtain ⟨hfirst, l, hl, hforward⟩ :=
    iteratorNext_single hx hnode (hvals.trans hone) hoffset hnext
  -- So the iterator has gone on to the node behind it, or to none.
  obtain ⟨as, cs, hsplit⟩ := List.append_of_mem hd
  obtain ⟨l', hl', hnextnode⟩ := h.rep.linked.next_node
    (show idx.sl.header :: bs.map Bucket.tag =
      (idx.sl.header :: as.map Bucket.tag) ++ d.tag :: cs.map Bucket.tag by simp [hsplit])
  obtain rfl : l = l' := Option.some.inj (hl.symm.trans hl')
  refine ⟨?_, ?_⟩
  · intro it₁ hit₁
    obtain rfl : it' = it₁ := Option.some.inj (hsc'.symm.trans hit₁)
    exact hfirst
  · intro it₁ hit₁ y hy
    obtain rfl : it' = it₁ := Option.some.inj (hsc'.symm.trans hit₁)
    have hhead := hnextnode.symm.trans (hforward y hy)
    cases cs with
    | nil => simp at hhead
    | cons e cs =>
        have he : e ∈ bs := by simp [hsplit]
        exact ⟨e, he, by simpa using hhead, h.id_notMem hsplit (by simp [hone]) (Or.inr (by simp))⟩

end Returned

end Secondary
