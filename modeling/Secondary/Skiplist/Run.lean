import Secondary.Lib.Run
import Secondary.Skiplist.Delete

/-!
# Run — skiplists under any sequence of operations

A list made by `skiplistCreate` is driven through inserts, deletes and pops.  What holds after
every such run is read off the pointers alone: `Chain` follows forward pointers on one level, and
`SkiplistInvariant` says how the chains, spans, backward pointers, tail, level, length, keys and
values stand to each other.
-/

namespace Secondary

open Lib

variable {K V : Type}

/-! ## Operations -/

inductive SkiplistOp (K V : Type)
  | insert (obj : K) (val : V) (level : Level)
  | delete (obj : K) (val : Option V)
  | popHead
  | popTail

/-- One call on the list; a pure comparator never faults. -/
def SkiplistOp.call (cmp : K → K → Int) (valcmp : V → V → Int) (sl : Skiplist K V) :
    SkiplistOp K V → Exec (Skiplist K V)
  | .insert obj val level => skiplistInsert (fun a b => .ok (cmp a b)) valcmp sl obj val level
  | .delete obj val => do
      let r ← skiplistDelete (fun a b => .ok (cmp a b)) valcmp sl obj val
      .ok r.1
  | .popHead => do
      let r ← skiplistPopHead (fun a b => .ok (cmp a b)) valcmp sl
      .ok r.1
  | .popTail => do
      let r ← skiplistPopTail (fun a b => .ok (cmp a b)) valcmp sl
      .ok r.1

/-! ## The invariant over pointers -/

/-- Following the forward pointers of level `i` visits `as` and then NULL. -/
inductive Chain (ns : Nodes K V) (i : Nat) : Option Nat → List Nat → Prop
  | null : Chain ns i none []
  | next {x : Nat} {l : SkiplistLevel} {as : List Nat} (level : ns.levelAt? x i = some l)
      (rest : Chain ns i l.forward as) : Chain ns i (some x) (x :: as)

/-- The representation invariant of a skiplist whose level-0 nodes are `as`. -/
structure SkiplistInvariant (cmp : K → K → Int) (valcmp : V → V → Int) (sl : Skiplist K V)
    (as : List Nat) : Prop where
  /-- Level 0 runs through all nodes. -/
  level0 : Chain sl.nodes 0 (some sl.header) (sl.header :: as)
  nodup : (sl.header :: as).Nodup
  /-- Keys are strictly increasing along level 0. -/
  increasing : as.Pairwise fun a b =>
    ∃ k k', sl.nodes.objAt? a = some k ∧ sl.nodes.objAt? b = some k' ∧ cmp k k' < 0
  keys : ∀ a ∈ as, ∃ k, sl.nodes.objAt? a = some k
  /-- The chain of a level in use is the subsequence of the nodes that are higher. -/
  chain : ∀ i, i < sl.level → Chain sl.nodes i (some sl.header)
    (sl.header :: as.filter fun a => decide (i < sl.nodes.height a))
  /-- Levels not in use are empty. -/
  above : ∀ i, sl.level ≤ i → i < skiplistMaxLevel →
    ∃ l, sl.nodes.levelAt? sl.header i = some l ∧ l.forward = none
  level_range : 1 ≤ sl.level ∧ sl.level ≤ skiplistMaxLevel
  /-- The top level in use is not empty, or is the only one. -/
  top : sl.level = 1 ∨
    ∃ l, sl.nodes.levelAt? sl.header (sl.level - 1) = some l ∧ l.forward ≠ none
  /-- A link's span is the number of level-0 steps to the node it leads to. -/
  span : ∀ i, i < sl.level → ∀ pre x suf, sl.header :: as = pre ++ x :: suf →
    ∀ l f, sl.nodes.levelAt? x i = some l → l.forward = some f →
      ∃ mid post, suf = mid ++ f :: post ∧ l.span = mid.length + 1
  /-- Backward pointers mirror level 0; the first node has none. -/
  back : ∀ pre a suf, as = pre ++ a :: suf → sl.nodes.backAt? a = some pre.getLast?
  tail : sl.tail = as.getLast?
  length : sl.length = as.length
  /-- Every node has a value, and no two that `valcmp` finds equal. -/
  vals : ∀ a ∈ as, ∃ vs, sl.nodes.valsAt? a = some vs ∧ vs ≠ [] ∧
    vs.Pairwise fun v w => valcmp v w ≠ 0

theorem chain_of_links {ns : Nodes K V} {cells : List Nat} {m i : Nat} (h : Links ns cells m)
    (hi : i < m) :
    ∀ (suf pre : List Nat), cells = pre ++ suf →
      Chain ns i (link ns.height i suf).forward
        (suf.filter fun a => decide (i < ns.height a)) := by
  intro suf
  induction suf with
  | nil => exact fun _ _ => .null
  | cons a suf ih =>
      intro pre hsplit
      have hrest := ih (pre ++ [a]) (by simp [hsplit])
      by_cases ha : i < ns.height a
      · have hl := h pre a suf hsplit i hi ha
        simpa [link, ha] using Chain.next hl hrest
      · simpa [link, ha] using hrest

theorem link_span {ht : Nat → Nat} {i : Nat} :
    ∀ {suf : List Nat} {f : Nat}, (link ht i suf).forward = some f →
      ∃ mid post, suf = mid ++ f :: post ∧ (link ht i suf).span = mid.length + 1
  | [], f, h => by simp [link] at h
  | a :: suf, f, h => by
      by_cases ha : i < ht a
      · obtain rfl : a = f := by simpa [link, ha] using h
        exact ⟨[], suf, rfl, by simp [link, ha]⟩
      · obtain ⟨mid, post, rfl, hspan⟩ := link_span (i := i) (show (link ht i suf).forward = some f by
          simpa [link, ha] using h)
        exact ⟨a :: mid, post, rfl, by simp [link, ha, hspan]⟩

theorem Linked.header_chain {sl : Skiplist K V} {as : List Nat} (h : Linked sl as) {i : Nat}
    (hi : i < sl.level) :
    Chain sl.nodes i (some sl.header)
      (sl.header :: as.filter fun a => decide (i < sl.nodes.height a)) := by
  have hheader : i < sl.nodes.height sl.header := by
    rw [h.header_height]
    exact Nat.lt_of_lt_of_le hi h.level_le
  exact .next (h.links [] sl.header as rfl i hi hheader)
    (chain_of_links h.links hi as [sl.header] rfl)

/-- Level 0 runs through all nodes. -/
theorem Linked.level0 {sl : Skiplist K V} {as : List Nat} (h : Linked sl as) :
    Chain sl.nodes 0 (some sl.header) (sl.header :: as) := by
  have hall : as.filter (fun a => decide (0 < sl.nodes.height a)) = as := by
    refine List.filter_eq_self.2 fun a ha => ?_
    exact decide_eq_true (h.height_pos a ha)
  have hchain := h.header_chain h.level_pos
  rwa [hall] at hchain

theorem Linked.top_nonempty {sl : Skiplist K V} {as : List Nat} (h : Linked sl as) :
    sl.level = 1 ∨
      ∃ l, sl.nodes.levelAt? sl.header (sl.level - 1) = some l ∧ l.forward ≠ none := by
  rcases h.top with hone | ⟨a, ha, hatop⟩
  · exact Or.inl hone
  · have hpos := h.level_pos
    have hheader : sl.level - 1 < sl.nodes.height sl.header := by
      have := h.level_le
      rw [h.header_height]
      omega
    refine Or.inr ⟨_, h.links [] sl.header as rfl (sl.level - 1) (by omega) hheader, ?_⟩
    intro hnone
    have := link_forward_eq_none_iff.1 hnone a ha
    omega

/-- A represented list with sorted buckets satisfies the invariant over pointers. -/
theorem Rep.invariant {cmp : K → K → Int} {valcmp : V → V → Int} {sl : Skiplist K V}
    {bs : List (Bucket K V)} (h : Rep sl bs) (hs : Bucket.Sorted cmp bs)
    (hv : Bucket.ValsOk (fun x y => decide (valcmp x y = 0)) bs) :
    SkiplistInvariant cmp valcmp sl (bs.map Bucket.tag) where
  level0 := h.linked.level0
  nodup := h.linked.nodup
  increasing := by
    refine List.pairwise_map.2 (List.Pairwise.imp_of_mem ?_ hs)
    intro a b ha hb hab
    exact ⟨a.key, b.key, h.obj a ha, h.obj b hb, hab⟩
  keys := by
    intro a ha
    obtain ⟨b, hb, rfl⟩ := List.mem_map.1 ha
    exact ⟨b.key, h.obj b hb⟩
  chain := fun i hi => h.linked.header_chain hi
  above := h.linked.above
  level_range := ⟨h.linked.level_pos, h.linked.level_le⟩
  top := h.linked.top_nonempty
  span := by
    intro i hi pre x suf hsplit l f hl hf
    have hx : i < sl.nodes.height x := Nodes.exists_levelAt?_iff.1 ⟨l, hl⟩
    -- The pointer stored in `x` is the one computed from the nodes behind it.
    have hlink := h.linked.links pre x suf hsplit i hi hx
    obtain rfl : link sl.nodes.height i suf = l := Option.some.inj (hlink.symm.trans hl)
    exact link_span hf
  back := by
    intro pre a suf hsplit
    have hback := h.linked.back
    rw [hsplit] at hback
    simpa using (backs_append.1 hback).2.1
  tail := h.linked.tail
  length := h.linked.length
  vals := by
    intro a ha
    obtain ⟨b, hb, rfl⟩ := List.mem_map.1 ha
    refine ⟨b.vals, h.vals b hb, (hv b hb).1, ?_⟩
    simpa using (hv b hb).2

/-! ## Runs -/

/-- What every operation keeps: contents in sorted buckets. -/
def SkiplistOk (cmp : K → K → Int) (valcmp : V → V → Int) (sl : Skiplist K V) : Prop :=
  ∃ bs, Rep sl bs ∧ Bucket.Sorted cmp bs ∧
    Bucket.ValsOk (fun x y => decide (valcmp x y = 0)) bs

section Steps

variable {cmp : K → K → Int} {valcmp : V → V → Int} {sl : Skiplist K V}

theorem compares_pure (cmp : K → K → Int) (obj : K) (bs : List (Bucket K V)) :
    Compares (fun a b => .ok (cmp a b)) obj (fun k => cmp k obj) bs :=
  fun _ _ => rfl

theorem SkiplistOk.insert (hcmp : PreorderCmp (fun _ => True) cmp) (h : SkiplistOk cmp valcmp sl)
    (obj : K) (val : V) (level : Level) :
    ∃ sl', skiplistInsert (fun a b => .ok (cmp a b)) valcmp sl obj val level = .ok sl' ∧
      SkiplistOk cmp valcmp sl' := by
  obtain ⟨bs, hrep, hsorted, hvals⟩ := h
  have hpos := Bucket.position hcmp hsorted (fun _ _ => trivial) (k := obj) trivial
  obtain ⟨sl', hrun, hrep'⟩ := hrep.insert (compares_pure cmp obj bs) hpos valcmp val level
  exact ⟨sl', hrun, _, hrep', hsorted.insert hcmp (fun _ _ => trivial) trivial rfl,
    hvals.insert _ sl.nodes.next obj val⟩

theorem pairwise_remainingVals (hsymm : ∀ x y, valcmp x y = 0 ↔ valcmp y x = 0) (val : Option V)
    {vs : List V} (h : vs.Pairwise fun x y => decide (valcmp x y = 0) = false) :
    (remainingVals valcmp val vs).Pairwise fun x y => decide (valcmp x y = 0) = false := by
  cases val with
  | none => exact List.Pairwise.nil
  | some v =>
      have hsame : ∀ x y, decide (valcmp x y = 0) = decide (valcmp y x = 0) :=
        fun x y => by simp [hsymm x y]
      exact Bucket.pairwise_swapRemove hsame h

theorem SkiplistOk.delete (hcmp : PreorderCmp (fun _ => True) cmp)
    (hsymm : ∀ x y, valcmp x y = 0 ↔ valcmp y x = 0) (h : SkiplistOk cmp valcmp sl) (obj : K)
    (val : Option V) :
    ∃ sl' found, skiplistDelete (fun a b => .ok (cmp a b)) valcmp sl obj val = .ok (sl', found) ∧
      SkiplistOk cmp valcmp sl' := by
  obtain ⟨bs, hrep, hsorted, hvals⟩ := h
  have hpos := Bucket.position hcmp hsorted (fun _ _ => trivial) (k := obj) trivial
  obtain ⟨sl', hrun, hrep'⟩ := hrep.delete (compares_pure cmp obj bs) hpos valcmp val
  exact ⟨sl', _, hrun, _, hrep', hsorted.delete,
    hvals.delete _ fun _ => pairwise_remainingVals hsymm val⟩

theorem SkiplistOk.call (hcmp : PreorderCmp (fun _ => True) cmp)
    (hsymm : ∀ x y, valcmp x y = 0 ↔ valcmp y x = 0) (h : SkiplistOk cmp valcmp sl)
    (op : SkiplistOp K V) :
    ∃ sl', op.call cmp valcmp sl = .ok sl' ∧ SkiplistOk cmp valcmp sl' := by
  obtain ⟨bs, hrep, _, _⟩ := id h
  cases op with
  | insert obj val level => exact h.insert hcmp obj val level
  | delete obj val =>
      obtain ⟨sl', found, hrun, hok⟩ := h.delete hcmp hsymm obj val
      exact ⟨sl', by simp [SkiplistOp.call, hrun], hok⟩
  | popHead =>
      -- The header's first pointer leads to the first bucket, whose key is deleted.
      obtain ⟨l, hl, hf⟩ := hrep.linked.header_next
      cases bs with
      | nil =>
          have hnone : l.forward = none := by simpa using hf
          exact ⟨sl, by simp [SkiplistOp.call, skiplistPopHead, Nodes.levelAt_of_some hl, hnone], h⟩
      | cons b bs =>
          have hsome : l.forward = some b.tag := by simpa using hf
          obtain ⟨sl', found, hrun, hok⟩ := h.delete hcmp hsymm b.key none
          refine ⟨sl', ?_, hok⟩
          simp [SkiplistOp.call, skiplistPopHead, Nodes.levelAt_of_some hl, hsome,
            Nodes.objAt_of_some (hrep.obj b (by simp)), hrun]
  | popTail =>
      have htail := hrep.linked.tail
      cases hlast : bs.getLast? with
      | none =>
          have hnone : sl.tail = none := by simp [htail, hlast]
          exact ⟨sl, by simp [SkiplistOp.call, skiplistPopTail, hnone], h⟩
      | some b =>
          have hsome : sl.tail = some b.tag := by simp [htail, hlast]
          have hmem : b ∈ bs := List.mem_of_getLast? hlast
          obtain ⟨sl', found, hrun, hok⟩ := h.delete hcmp hsymm b.key none
          refine ⟨sl', ?_, hok⟩
          simp [SkiplistOp.call, skiplistPopTail, hsome, Nodes.objAt_of_some (hrep.obj b hmem), hrun]

end Steps

/-- After every sequence of operations on a new list, for every choice of levels, no operation has
faulted and the list satisfies the representation invariant.  A span is an `unsigned int` of the
source and a number here, so fewer than 2^32 nodes are assumed. -/
theorem skiplist_run_invariant {cmp : K → K → Int} {valcmp : V → V → Int}
    (hcmp : PreorderCmp (fun _ => True) cmp) (hsymm : ∀ x y, valcmp x y = 0 ↔ valcmp y x = 0)
    (ops : List (SkiplistOp K V)) :
    ∃ sl, run (SkiplistOp.call cmp valcmp) (skiplistCreate K V) ops = .ok sl ∧
      ∃ as, SkiplistInvariant cmp valcmp sl as := by
  have hcreate : SkiplistOk cmp valcmp (skiplistCreate K V) :=
    ⟨[], rep_create, List.Pairwise.nil, by simp [Bucket.ValsOk]⟩
  obtain ⟨sl, hrun, bs, hrep, hsorted, hvals⟩ :=
    run_of_total (fun sl op h => SkiplistOk.call hcmp hsymm h op) ops _ hcreate
  exact ⟨sl, hrun, _, hrep.invariant hsorted hvals⟩

/-- Two classes of keys, towers of different height, a second value, deletes and a pop. -/
theorem skiplist_run_invariant_int :
    ∃ sl, run (SkiplistOp.call (fun a b : Int => a - b) (fun v w : Int => v - w))
        (skiplistCreate Int Int)
        [.insert 2 10 ⟨3, by decide⟩, .insert 1 11 ⟨1, by decide⟩, .insert 2 12 ⟨1, by decide⟩,
          .delete 2 (some 10), .insert 3 13 ⟨2, by decide⟩, .popTail, .delete 1 none] = .ok sl ∧
      ∃ as, SkiplistInvariant (fun a b : Int => a - b) (fun v w : Int => v - w) sl as :=
  skiplist_run_invariant
    { swap := by intros; omega
      trans := by intros; omega }
    (by intros; omega) _

end Secondary
