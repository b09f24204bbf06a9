import Secondary.IndexInvariant
import Secondary.KeyLaws
import Secondary.Skiplist.Run
import Secondary.Skiplist.Scan

/-!
# Sorted — a skiplist is a sorted association list

The abstract machine of this file has neither nodes nor levels: its state is a list of keys with
their values, and its operations do not draw anything.  What the nodes on level 0 hold after any
sequence of operations on a skiplist is the state of that machine, and every search of the skiplist
finds the node that a scan of level 0 finds.
-/

namespace Secondary

open Lib

/-! ## Sorted association lists -/

section Abstract

variable {K V : Type}

inductive SortedOp (K V : Type)
  | insert (obj : K) (val : V)
  | delete (obj : K) (val : Option V)
  | popHead
  | popTail

/-- Append the value to its class unless an equal value is there; a new class goes in its place. -/
def sortedInsert (cmp : K → K → Int) (same : V → V → Bool) (obj : K) (val : V) :
    List (K × List V) → List (K × List V)
  | [] => [(obj, [val])]
  | (k, vs) :: rest =>
      if cmp k obj < 0 then
        (k, vs) :: sortedInsert cmp same obj val rest
      else if cmp k obj = 0 then
        (k, appendNew same vs val) :: rest
      else
        (obj, [val]) :: (k, vs) :: rest

/-- The values without the one that is equal to `val`, the last one having moved into its place;
none without a value to remove. -/
def sortedLeft (same : V → V → Bool) (val : Option V) (vs : List V) : List V :=
  match val with
  | none => []
  | some v => swapRemove (same v) vs

/-- Remove the value from its class; a class without values is dropped. -/
def sortedDelete (cmp : K → K → Int) (same : V → V → Bool) (obj : K) (val : Option V) :
    List (K × List V) → List (K × List V)
  | [] => []
  | (k, vs) :: rest =>
      if cmp k obj < 0 then
        (k, vs) :: sortedDelete cmp same obj val rest
      else if cmp k obj = 0 then
        if sortedLeft same val vs = [] then rest else (k, sortedLeft same val vs) :: rest
      else
        (k, vs) :: rest

def sortedStep (cmp : K → K → Int) (valcmp : V → V → Int) (assoc : List (K × List V)) :
    SortedOp K V → List (K × List V)
  | .insert obj val => sortedInsert cmp (fun x y => decide (valcmp x y = 0)) obj val assoc
  | .delete obj val => sortedDelete cmp (fun x y => decide (valcmp x y = 0)) obj val assoc
  | .popHead => assoc.tail
  | .popTail => assoc.dropLast

end Abstract

/-! ## Observing a skiplist -/

section Observe

variable {K V O : Type}

/-- The operation without the level that was drawn for it. -/
def SkiplistOp.forgetLevel : SkiplistOp K V → SortedOp K V
  | .insert obj val _ => .insert obj val
  | .delete obj val => .delete obj val
  | .popHead => .popHead
  | .popTail => .popTail

/-- `for (; x; x = x->level[0].forward)`: the nodes from `x` on, with their objects and values. -/
def level0From (ns : Nodes K V) : Nat → Option Nat → Exec (List (Bucket K V))
  | _, none => .ok []
  | 0, some _ => .error .diverges
  | fuel + 1, some x => do
      let n ← ns.node x
      let obj ← ns.objAt x
      let l ← ns.levelAt x 0
      let rest ← level0From ns fuel l.forward
      .ok ({ tag := x, key := obj, vals := n.vals } :: rest)

/-- The nodes of level 0. -/
def level0 (sl : Skiplist K V) : Exec (List (Bucket K V)) := do
  let l ← sl.nodes.levelAt sl.header 0
  level0From sl.nodes sl.nodes.next l.forward

def contents (bs : List (Bucket K V)) : List (K × List V) :=
  bs.map fun b => (b.key, b.vals)

/-- The first node whose object is equal to the sought one. -/
def scanFind (c : K → Int) (bs : List (Bucket K V)) : Option Nat :=
  (bs.find? fun b => decide (c b.key = 0)).map Bucket.tag

/-- The first node whose object is not before the bound. -/
def scanAtLeast (c : K → Int) (exclusive : Bool) (bs : List (Bucket K V)) : Option Nat :=
  (bs.find? fun b => !decide (c b.key < 0 ∨ (c b.key = 0 ∧ exclusive = true))).map Bucket.tag

/-- Comparing with a bound cuts the order of the objects: what is not after an object that is below
the bound, or not above it, is so as well. -/
def CutBy (cmp : K → K → Int) (c : K → Int) : Prop :=
  ∀ k k', cmp k k' ≤ 0 → (c k' < 0 → c k < 0) ∧ (c k' ≤ 0 → c k ≤ 0)

/-- What a skiplist is after the operations: its level 0 holds what the sorted association list
holds, and its searches find what a scan of level 0 finds. -/
def RefinesSorted (cmp : K → K → Int) (valcmp : V → V → Int) (ops : List (SkiplistOp K V)) :
    Prop :=
  ∃ sl bs, run (SkiplistOp.call cmp valcmp) (skiplistCreate K V) ops = .ok sl ∧
    level0 sl = .ok bs ∧
    contents bs = (ops.map SkiplistOp.forgetLevel).foldl (sortedStep cmp valcmp) [] ∧
    (∀ obj, skiplistFind (fun a b => .ok (cmp a b)) sl obj =
      .ok (scanFind (fun k => cmp k obj) bs)) ∧
    ∀ (O : Type) (compare : K → O → Int) (bound : O) (exclusive : Bool),
      CutBy cmp (fun k => compare k bound) →
        skiplistFindAtLeast (fun a b => .ok (compare a b)) sl bound exclusive =
          .ok (scanAtLeast (fun k => compare k bound) exclusive bs)

end Observe

/-! ## Level 0 -/

section Refinement

variable {K V : Type} {cmp : K → K → Int} {valcmp : V → V → Int} {sl : Skiplist K V}
  {bs : List (Bucket K V)}

theorem Rep.level0From (h : Rep sl bs) :
    ∀ (cs as : List (Bucket K V)), bs = as ++ cs → ∀ fuel, cs.length ≤ fuel →
      level0From sl.nodes fuel (cs.head?.map Bucket.tag) = .ok cs := by
  intro cs
  induction cs with
  | nil =>
      intro as _ fuel _
      cases fuel <;> rfl
  | cons b cs ih =>
      intro as hbs fuel hfuel
      cases fuel with
      | zero => simp at hfuel
      | succ fuel =>
          have hb : b ∈ bs := by simp [hbs]
          obtain ⟨n, hn, hvals⟩ := Nodes.cell_of_valsAt? (h.vals b hb)
          have hobj := Nodes.objAt_of_some (h.obj b hb)
          obtain ⟨l, hl, hf⟩ := h.linked.next_node
            (show sl.header :: bs.map Bucket.tag =
              (sl.header :: as.map Bucket.tag) ++ b.tag :: cs.map Bucket.tag by simp [hbs])
          have hrest := ih (as ++ [b]) (by simp [hbs]) fuel (by simpa using hfuel)
          rw [List.head?_map] at hf
          have hnode : sl.nodes.node b.tag = .ok n := by simp [Nodes.node, hn]
          rw [List.head?_cons, Option.map_some, Secondary.level0From, hnode, ok_bind, hobj, ok_bind,
            Nodes.levelAt_of_some hl, ok_bind, hf, hrest, ok_bind, hvals]

theorem Rep.level0 (h : Rep sl bs) : level0 sl = .ok bs := by
  obtain ⟨l, hl, hf⟩ := h.linked.header_next
  have hlen := h.linked.length_le_next
  rw [List.length_cons, List.length_map] at hlen
  rw [List.head?_map] at hf
  rw [Secondary.level0, Nodes.levelAt_of_some hl, ok_bind, hf]
  exact h.level0From bs [] rfl _ (by omega)

/-! ## One operation -/

theorem contents_insert (obj : K) (val : V) (tag : Nat) :
    contents (Bucket.insert (fun k => cmp k obj) (fun x y => decide (valcmp x y = 0))
        { tag := tag, key := obj, vals := [val] } val bs) =
      sortedInsert cmp (fun x y => decide (valcmp x y = 0)) obj val (contents bs) := by
  induction bs with
  | nil => rfl
  | cons b bs ih =>
      simp only [contents, Bucket.insert, List.map_cons, sortedInsert] at ih ⊢
      split_ifs with hlt heq
      · rw [List.map_cons, ih]
      · rfl
      · rfl

theorem contents_delete (obj : K) (val : Option V) :
    contents (Bucket.delete (fun k => cmp k obj) (remainingVals valcmp val) bs) =
      sortedDelete cmp (fun x y => decide (valcmp x y = 0)) obj val (contents bs) := by
  induction bs with
  | nil => rfl
  | cons b bs ih =>
      have hleft : remainingVals valcmp val b.vals =
          sortedLeft (fun x y => decide (valcmp x y = 0)) val b.vals := by
        cases val <;> rfl
      simp only [contents, Bucket.delete, List.map_cons, sortedDelete] at ih ⊢
      rw [← hleft]
      split_ifs with hlt heq hnil
      · rw [List.map_cons, ih]
      · rfl
      · rfl
      · rfl

theorem sortedDelete_head (hcmp : PreorderCmp (fun _ => True) cmp) {same : V → V → Bool} {k : K}
    {vs : List V} {rest : List (K × List V)} :
    sortedDelete cmp same k none ((k, vs) :: rest) = rest := by
  have hzero : cmp k k = 0 := hcmp.refl trivial
  simp [sortedDelete, sortedLeft, hzero]

theorem sortedDelete_last (hcmp : PreorderCmp (fun _ => True) cmp) {same : V → V → Bool} {k : K}
    {vs : List V} {front : List (K × List V)} (hfront : ∀ e ∈ front, cmp e.1 k < 0) :
    sortedDelete cmp same k none (front ++ [(k, vs)]) = front := by
  induction front with
  | nil => exact sortedDelete_head hcmp
  | cons e front ih =>
      have hlt := hfront e (by simp)
      rw [List.cons_append, sortedDelete, if_pos hlt,
        ih fun e' he' => hfront e' (List.mem_cons_of_mem _ he')]

/-- Every operation on a skiplist is the operation on its contents. -/
theorem Rep.call (hcmp : PreorderCmp (fun _ => True) cmp) (h : Rep sl bs)
    (hs : Bucket.Sorted cmp bs) (op : SkiplistOp K V) :
    ∃ sl' bs', op.call cmp valcmp sl = .ok sl' ∧ Rep sl' bs' ∧ Bucket.Sorted cmp bs' ∧
      contents bs' = sortedStep cmp valcmp (contents bs) op.forgetLevel := by
  have hpos : ∀ obj, Bucket.Position (fun k => cmp k obj) bs := fun obj =>
    Bucket.position hcmp hs (fun _ _ => trivial) trivial
  have hdelete : ∀ obj val, ∃ sl' found,
      skiplistDelete (fun a b => .ok (cmp a b)) valcmp sl obj val = .ok (sl', found) ∧
        Rep sl' (Bucket.delete (fun k => cmp k obj) (remainingVals valcmp val) bs) := by
    intro obj val
    obtain ⟨sl', hrun, hrep⟩ := h.delete (compares_pure cmp obj bs) (hpos obj) valcmp val
    exact ⟨sl', _, hrun, hrep⟩
  cases op with
  | insert obj val level =>
      obtain ⟨sl', hrun, hrep⟩ := h.insert (compares_pure cmp obj bs) (hpos obj) valcmp val level
      exact ⟨sl', _, hrun, hrep, hs.insert hcmp (fun _ _ => trivial) trivial rfl,
        contents_insert obj val _⟩
  | delete obj val =>
      obtain ⟨sl', found, hrun, hrep⟩ := hdelete obj val
      exact ⟨sl', _, by simp [SkiplistOp.call, hrun], hrep, hs.delete, contents_delete obj val⟩
  | popHead =>
      -- The key of the first node is deleted with all its values.
      obtain ⟨l, hl, hf⟩ := h.linked.header_next
      cases bs with
      | nil =>
          have hnone : l.forward = none := by simpa using hf
          exact ⟨sl, [], by
            simp [SkiplistOp.call, skiplistPopHead, Nodes.levelAt_of_some hl, hnone], h, hs, rfl⟩
      | cons b bs =>
          have hsome : l.forward = some b.tag := by simpa using hf
          obtain ⟨sl', found, hrun, hrep⟩ := hdelete b.key none
          refine ⟨sl', _, ?_, hrep, hs.delete, ?_⟩
          · simp [SkiplistOp.call, skiplistPopHead, Nodes.levelAt_of_some hl, hsome,
              Nodes.objAt_of_some (h.obj b (by simp)), hrun]
          · rw [contents_delete]
            exact sortedDelete_head hcmp
  | popTail =>
      have htail := h.linked.tail
      cases hlast : bs.getLast? with
      | none =>
          obtain rfl : bs = [] := List.getLast?_eq_none_iff.1 hlast
          have hnone : sl.tail = none := by simp [htail]
          exact ⟨sl, [], by simp [SkiplistOp.call, skiplistPopTail, hnone], h, hs, rfl⟩
      | some b =>
          have hsome : sl.tail = some b.tag := by simp [htail, hlast]
          have hsplit : bs = bs.dropLast ++ [b] := (List.dropLast_append_getLast? b hlast).symm
          have hmem : b ∈ bs := List.mem_of_getLast? hlast
          obtain ⟨sl', found, hrun, hrep⟩ := hdelete b.key none
          refine ⟨sl', _, ?_, hrep, hs.delete, ?_⟩
          · simp [SkiplistOp.call, skiplistPopTail, hsome, Nodes.objAt_of_some (h.obj b hmem), hrun]
          · -- All other keys are below the last one, so only its node is met.
            have hfront : ∀ e ∈ contents bs.dropLast, cmp e.1 b.key < 0 := by
              rw [hsplit] at hs
              intro e he
              obtain ⟨a, ha, rfl⟩ := List.mem_map.1 he
              exact (Bucket.sorted_append.1 hs).2.2 a ha b (by simp)
            have hcontents : contents bs = contents bs.dropLast ++ [(b.key, b.vals)] := by
              conv_lhs => rw [hsplit]
              simp [contents]
            rw [contents_delete, hcontents, sortedDelete_last hcmp hfront]
            simp [sortedStep, SkiplistOp.forgetLevel]

/-! ## Searches -/

/-- On sorted buckets, a bound that cuts the order cuts the list. -/
theorem CutBy.cut {c : K → Int} (hc : CutBy cmp c) (hs : Bucket.Sorted cmp bs) (exclusive : Bool) :
    Cut (fun b : Bucket K V => decide (c b.key < 0 ∨ (c b.key = 0 ∧ exclusive = true))) bs := by
  refine List.Pairwise.imp ?_ hs
  intro a b hab hb
  obtain ⟨hlt, hle⟩ := hc a.key b.key (Int.le_of_lt hab)
  simp only [decide_eq_true_eq] at hb ⊢
  cases exclusive with
  | false =>
      simp only [Bool.false_eq_true, and_false, or_false] at hb ⊢
      exact hlt hb
  | true =>
      simp only [and_true] at hb ⊢
      have := hle (by omega)
      omega

/-- After every sequence of operations, for every choice of levels. -/
theorem refinesSorted (hcmp : PreorderCmp (fun _ => True) cmp) (valcmp : V → V → Int)
    (ops : List (SkiplistOp K V)) : RefinesSorted cmp valcmp ops := by
  obtain ⟨sl, hrun, bs, hrep, hs, hcontents⟩ := run_of_simulation (P := fun _ _ => True)
    (fun sl assoc => ∃ bs, Rep sl bs ∧ Bucket.Sorted cmp bs ∧ contents bs = assoc)
    (fun assoc op => sortedStep cmp valcmp assoc op.forgetLevel)
    (by
      rintro sl _ op ⟨bs, hrep, hs, rfl⟩ _
      obtain ⟨sl', bs', hcall, hrep', hs', hcontents⟩ := hrep.call hcmp hs op
      exact ⟨sl', hcall, bs', hrep', hs', hcontents⟩)
    ops (skiplistCreate K V) [] ⟨[], rep_create, List.Pairwise.nil, rfl⟩
    (every_of_mem fun _ _ _ => trivial)
  refine ⟨sl, bs, hrun, hrep.level0, ?_, ?_, ?_⟩
  · rw [hcontents, List.foldl_map]
  · intro obj
    exact hrep.find (compares_pure cmp obj bs)
      (Bucket.position hcmp hs (fun _ _ => trivial) trivial)
  · intro O compare bound exclusive hcut
    rw [scanAtLeast, List.find?_not_eq_head?_dropWhile]
    exact hrep.findAtLeast (c := fun k => compare k bound) (fun _ _ => rfl) exclusive
      (hcut.cut hs exclusive)

end Refinement

/-! ## Tuples and their prefixes -/

/-- The keys of an index with these columns. -/
abbrev TupleKey (types : List SIType) : Type :=
  {k : SIMultiKey // FullKey types k}

/-- `SICmpMultiKey` on two keys. -/
def tupleCmp {types : List SIType} (fs : List SIKeyCmpFunc) (k k' : TupleKey types) : Int :=
  returned (siCmpMultiKey fs k.val k'.val)

/-- The order of an index is a total preorder, and bounds on the first columns cut it. -/
theorem tupleCmp_cutBy {types : List SIType} {fs : List SIKeyCmpFunc} (hfs : CmpFuncsOf types fs)
    (htypes : NoFloats types) :
    PreorderCmp (fun _ => True) (@tupleCmp types fs) ∧
      ∀ b, KeyBound types b → ∃ c : TupleKey types → Int,
        (∀ k, siCmpMultiKey fs k.val b = .ok (c k)) ∧ CutBy (tupleCmp fs) c := by
  -- Comparing tuples never faults, so the result is a function of the tuples.
  have hlaws := orderLaws hfs htypes
  have hcmp : ∀ k k' : TupleKey types, siCmpMultiKey fs k.val k'.val = .ok (tupleCmp fs k k') := by
    intro k k'
    obtain ⟨c, c', hc, _⟩ := hlaws.antisymm k.val k'.val k.property k'.property
    rw [tupleCmp, hc]
    rfl
  have hle : ∀ k k' : TupleKey types, CompareLe fs k.val k'.val ↔ tupleCmp fs k k' ≤ 0 := by
    intro k k'
    simp [CompareLe, hcmp]
  refine ⟨⟨?_, ?_⟩, ?_⟩
  · intro k k' _ _
    obtain ⟨c, c', hc, hc', hlt, _, _⟩ := hlaws.antisymm k.val k'.val k.property k'.property
    rw [hcmp k k', Except.ok.injEq] at hc
    rw [hcmp k' k, Except.ok.injEq] at hc'
    rwa [hc, hc']
  · intro k k' k'' _ _ _ h h'
    rw [← hle] at h h' ⊢
    exact hlaws.trans k.val k'.val k''.val k.property k'.property k''.property h h'
  · intro b hb
    -- A bound cuts the tuples in two: those below it come first.
    have hbound := boundLaws hfs htypes hb
    have hc : ∀ k : TupleKey types,
        siCmpMultiKey fs k.val b = .ok (returned (siCmpMultiKey fs k.val b)) := by
      intro k
      obtain ⟨c, hc⟩ := hbound.compares k.val k.property
      rw [hc]
      rfl
    refine ⟨fun k => returned (siCmpMultiKey fs k.val b), hc, ?_⟩
    intro k k' h
    rw [← hle] at h
    have hbelow := hbound.below k.val k'.val k.property k'.property h
    have hnotAbove := hbound.notAbove k.val k'.val k.property k'.property h
    rw [CompareLt, CompareLt, hc k, hc k'] at hbelow
    rw [CompareLe, CompareLe, hc k, hc k'] at hnotAbove
    simp only [Except.ok.injEq, exists_eq_left'] at hbelow hnotAbove
    exact ⟨hbelow, hnotAbove⟩

/-- A skiplist under any total preorder is a sorted association list, whatever levels are drawn, and
the bounds that queries compare tuples with are such that its searches are scans. -/
theorem skiplist_refines_sorted :
    (∀ {K V : Type} {cmp : K → K → Int} (_ : PreorderCmp (fun _ => True) cmp)
        (valcmp : V → V → Int) (ops : List (SkiplistOp K V)), RefinesSorted cmp valcmp ops) ∧
      ∀ {types : List SIType} {fs : List SIKeyCmpFunc}, CmpFuncsOf types fs → NoFloats types →
        PreorderCmp (fun _ => True) (@tupleCmp types fs) ∧
          ∀ b, KeyBound types b → ∃ c : TupleKey types → Int,
            (∀ k, siCmpMultiKey fs k.val b = .ok (c k)) ∧ CutBy (tupleCmp fs) c :=
  ⟨refinesSorted, tupleCmp_cutBy⟩

/-- A preorder that is no order, towers of different height and a second value; prefixes of pairs
of a STRING and an INT32. -/
theorem skiplist_refines_sorted_halves :
    RefinesSorted (fun a b : Int => a / 2 - b / 2) (fun v w : Int => v - w)
        [.insert 4 10 ⟨3, by decide⟩, .insert 1 11 ⟨1, by decide⟩, .insert 5 12 ⟨1, by decide⟩,
          .delete 4 (some 10), .insert 7 13 ⟨2, by decide⟩, .popTail, .delete 0 none] ∧
      ∃ c : TupleKey [.string, .int32] → Int,
        (∀ k, siCmpMultiKey [siCmpString, siCmpInt] k.val [.string [97]] = .ok (c k)) ∧
          CutBy (tupleCmp [siCmpString, siCmpInt]) c := by
  refine ⟨skiplist_refines_sorted.1 ⟨by intros; omega, by intros; omega⟩ _ _, ?_⟩
  refine (skiplist_refines_sorted.2 (.cons rfl (.cons rfl .nil)) (by decide)).2 _ ?_
  exact .cons (Or.inl (Or.inr rfl)) .nil

end Secondary
