import Secondary.Skiplist.Delete

/-!
# Scan — finding and iterating over the buckets

`skiplistFind` and `skiplistFindAtLeast` are linear scans of level 0.  An iterator stands at a
bucket with some of its values still to come; `IterAt` says which buckets those are, up to the end
of the range, and `skiplistIterator_Next` takes the next value off them.
-/

namespace Secondary

open Lib

variable {K V O : Type}

/-! ## Searches that cut the list -/

/-- A search by a predicate that holds on an initial segment ends after that segment. -/
theorem Rep.search_cut {sl : Skiplist K V} {pass : K → Exec Bool} {p : K → Bool}
    {bs : List (Bucket K V)} (h : Rep sl bs) (hpass : ∀ b ∈ bs, pass b.key = .ok (p b.key))
    (hcut : Cut (fun b : Bucket K V => p b.key) bs) :
    ∃ y update, skiplistSearch sl pass = .ok (y, update) ∧
      SearchOk sl ((bs.takeWhile fun b => p b.key).map Bucket.tag)
        ((bs.dropWhile fun b => p b.key).map Bucket.tag) y update := by
  have hsplit := List.takeWhile_append_dropWhile (p := fun b : Bucket K V => p b.key) (l := bs)
  refine Rep.search (p := p) (by rwa [hsplit]) (by rwa [hsplit]) ?_ ?_
  · intro a ha
    exact List.mem_takeWhile_imp (p := fun b : Bucket K V => p b.key) ha
  · exact hcut.dropWhile_eq_false

theorem Rep.findAtLeast {sl : Skiplist K V} {compare : K → O → Exec Int} {obj : O} {c : K → Int}
    {bs : List (Bucket K V)} (h : Rep sl bs) (hc : Compares compare obj c bs) (exclusive : Bool)
    (hcut : Cut (fun b : Bucket K V =>
      decide (c b.key < 0 ∨ (c b.key = 0 ∧ exclusive = true))) bs) :
    skiplistFindAtLeast compare sl obj exclusive =
      .ok ((bs.dropWhile fun b =>
        decide (c b.key < 0 ∨ (c b.key = 0 ∧ exclusive = true))).head?.map Bucket.tag) := by
  have hpass : ∀ b ∈ bs, belowBound compare obj exclusive b.key =
      .ok (decide (c b.key < 0 ∨ (c b.key = 0 ∧ exclusive = true))) := by
    intro b hb
    simp [belowBound, hc b hb]
  obtain ⟨y, update, hsearch, hs⟩ :=
    h.search_cut (p := fun k => decide (c k < 0 ∨ (c k = 0 ∧ exclusive = true))) hpass hcut
  obtain ⟨l, hl, hf⟩ := hs.next
  simp [skiplistFindAtLeast, hsearch, Nodes.levelAt_of_some hl, hf]

/-- `skiplistFind` returns the bucket of the sought class, if there is one. -/
theorem Rep.find {sl : Skiplist K V} {compare : K → O → Exec Int} {obj : O} {c : K → Int}
    {bs : List (Bucket K V)} (h : Rep sl bs) (hc : Compares compare obj c bs)
    (hpos : Bucket.Position c bs) :
    skiplistFind compare sl obj =
      .ok ((bs.find? fun b => decide (c b.key = 0)).map Bucket.tag) := by
  have hbelow : ∀ as : List (Bucket K V), (∀ a ∈ as, c a.key < 0) →
      as.find? (fun b => decide (c b.key = 0)) = none := by
    intro as has
    refine List.find?_eq_none.2 fun a ha => ?_
    have := has a ha
    simp
    omega
  rcases hpos with ⟨as, b, cs, rfl, has, hhit, hcs⟩ | ⟨as, cs, rfl, has, hcs⟩
  · obtain ⟨y, update, hsearch, _, hmatch⟩ := h.search_present hc has hhit hcs
    simp [skiplistFind, hsearch, hmatch, List.find?_append, hbelow as has, hhit]
  · obtain ⟨y, update, hsearch, _, hmatch⟩ := h.search_absent hc has hcs
    have hnone : (as ++ cs).find? (fun b => decide (c b.key = 0)) = none := by
      rw [List.find?_append, hbelow as has, Option.none_or]
      refine List.find?_eq_none.2 fun d hd => ?_
      have := hcs d hd
      simp
      omega
    simp [skiplistFind, hsearch, hmatch, hnone]

/-! ## Iterators -/

/-- The buckets that an iterator has still to visit, the first one with the values still to come.
`above` says which keys lie past the end of the range. -/
inductive IterAt (bs : List (Bucket K V)) (above : K → Bool) (it : SkiplistIterator O) :
    List (Bucket K V) → Prop
  | done (current : it.current = none) : IterAt bs above it []
  | at (as : List (Bucket K V)) (b : Bucket K V) (cs : List (Bucket K V)) (split : bs = as ++ b :: cs)
      (current : it.current = some b.tag) (offset : it.currentValOffset < b.vals.length)
      (within : above b.key = false) :
      IterAt bs above it
        ({ b with vals := b.vals.drop it.currentValOffset } ::
          cs.takeWhile fun d => !above d.key)

/-- The comparison with the end of the range, `above`, on the keys of the list. -/
def ClipsAt (compare : K → O → Exec Int) (max : Option O) (exclusive : Bool) (above : K → Bool)
    (bs : List (Bucket K V)) : Prop :=
  match max with
  | none => ∀ b ∈ bs, above b.key = false
  | some m => ∀ b ∈ bs, aboveBound compare m exclusive b.key = .ok (above b.key)

theorem Rep.clipNode {sl : Skiplist K V} {compare : K → O → Exec Int} {max : Option O}
    {exclusive : Bool} {above : K → Bool} {as cs : List (Bucket K V)} (h : Rep sl (as ++ cs))
    (hclip : ClipsAt compare max exclusive above (as ++ cs)) :
    clipNode compare sl.nodes max exclusive (cs.head?.map Bucket.tag) =
      .ok ((cs.takeWhile fun d => !above d.key).head?.map Bucket.tag) := by
  cases cs with
  | nil => cases max <;> rfl
  | cons d cs =>
      cases max with
      | none =>
          have hd : above d.key = false := hclip d (by simp)
          simp [Secondary.clipNode, hd]
      | some m =>
          have hd := hclip d (by simp)
          have hobj := Nodes.objAt_of_some (h.obj d (by simp))
          cases habove : above d.key with
          | true => simp [Secondary.clipNode, hobj, hd, habove]
          | false => simp [Secondary.clipNode, hobj, hd, habove]

/-- An iterator at the first of some consecutive buckets, clipped at the end of the range. -/
theorem IterAt.of_suffix {bs as cs : List (Bucket K V)} {above : K → Bool}
    {it : SkiplistIterator O} (hsplit : bs = as ++ cs) (hvals : ∀ b ∈ bs, b.vals ≠ [])
    (hcurrent : it.current = (cs.takeWhile fun d => !above d.key).head?.map Bucket.tag)
    (hoffset : it.currentValOffset = 0) :
    IterAt bs above it (cs.takeWhile fun d => !above d.key) := by
  cases cs with
  | nil => exact .done (by simpa using hcurrent)
  | cons d cs =>
      cases habove : above d.key with
      | true =>
          have hdone : IterAt bs above it [] := .done (by simpa [habove] using hcurrent)
          simpa [habove] using hdone
      | false =>
          have hd : d.vals ≠ [] := hvals d (by simp [hsplit])
          have hat : IterAt bs above it _ := .at as d cs hsplit
            (show it.current = some d.tag by simpa [habove] using hcurrent) (by
              rw [hoffset]
              exact List.length_pos_iff.2 hd) habove
          simpa [habove, hoffset] using hat

/-- The buckets from the first one that is not below the range to the last one not above it. -/
def inRange (below above : K → Bool) (bs : List (Bucket K V)) : List (Bucket K V) :=
  (bs.dropWhile fun b => below b.key).takeWhile fun b => !above b.key

/-- A range scan starts at the first bucket in the range. -/
theorem Rep.iterateRange {sl : Skiplist K V} {compare : K → O → Exec Int} {min : O}
    {max : Option O} {c : K → Int} {above : K → Bool} {bs : List (Bucket K V)} (h : Rep sl bs)
    (hvals : ∀ b ∈ bs, b.vals ≠ []) (hc : Compares compare min c bs)
    (minExclusive maxExclusive : Bool) (hclip : ClipsAt compare max maxExclusive above bs)
    (hcut : Cut (fun b : Bucket K V =>
      decide (c b.key < 0 ∨ (c b.key = 0 ∧ minExclusive = true))) bs) :
    ∃ it, skiplistIterateRange compare sl min max minExclusive maxExclusive = .ok it ∧
      it.rangeMax = max ∧ it.maxExclusive = maxExclusive ∧
      IterAt bs above it
        (inRange (fun k => decide (c k < 0 ∨ (c k = 0 ∧ minExclusive = true))) above bs) := by
  have hsplit := List.takeWhile_append_dropWhile
    (p := fun b : Bucket K V => decide (c b.key < 0 ∨ (c b.key = 0 ∧ minExclusive = true)))
    (l := bs)
  have hfind := h.findAtLeast hc minExclusive hcut
  have hclipped := Rep.clipNode (by rwa [hsplit]) (by rwa [hsplit])
  refine ⟨_, by rw [skiplistIterateRange, hfind, ok_bind, hclipped]; rfl, rfl, rfl, ?_⟩
  exact IterAt.of_suffix hsplit.symm hvals rfl rfl

/-- What is left after the next value has been taken. -/
def advance : List (Bucket K V) → List (Bucket K V)
  | [] => []
  | b :: bs =>
      match b.vals with
      | _ :: v :: vs => { b with vals := v :: vs } :: bs
      | _ => bs

/-- One value is taken. -/
theorem length_allVals_advance {b : Bucket K V} (cs : List (Bucket K V)) (hb : b.vals ≠ []) :
    (Bucket.allVals (b :: cs)).length = (Bucket.allVals (advance (b :: cs))).length + 1 := by
  cases hvals : b.vals with
  | nil => exact absurd hvals hb
  | cons v vs =>
      cases vs with
      | nil => simp [advance, hvals]
      | cons w vs => simp [advance, hvals]

/-- `skiplistIterator_Next` takes the first value that is still to come. -/
theorem Rep.iteratorNext {sl : Skiplist K V} {compare : K → O → Exec Int} {above : K → Bool}
    {it : SkiplistIterator O} {bs pending : List (Bucket K V)} (h : Rep sl bs)
    (hvals : ∀ b ∈ bs, b.vals ≠ [])
    (hclip : ClipsAt compare it.rangeMax it.maxExclusive above bs)
    (hit : IterAt bs above it pending) :
    ∃ it', skiplistIteratorNext compare sl it =
        .ok (it', pending.head?.bind fun b => b.vals.head?) ∧
      it'.rangeMax = it.rangeMax ∧ it'.maxExclusive = it.maxExclusive ∧
      IterAt bs above it' (advance pending) := by
  cases hit with
  | done current =>
      exact ⟨it, by simp [skiplistIteratorNext, current], rfl, rfl, .done current⟩
  | «at» as b cs split current offset within =>
      subst split
      obtain ⟨n, hn, hnvals⟩ := Nodes.cell_of_valsAt? (h.vals b (by simp))
      -- The value that is returned, and what is left of the bucket.
      obtain ⟨v, rest, hdrop⟩ : ∃ v rest, b.vals.drop it.currentValOffset = v :: rest := by
        cases hd : b.vals.drop it.currentValOffset with
        | nil =>
            have := List.drop_eq_nil_iff.1 hd
            omega
        | cons v rest => exact ⟨v, rest, rfl⟩
      have hget : b.vals[it.currentValOffset] = v := by
        have hhead := congrArg List.head? hdrop
        simpa [List.head?_drop, offset] using hhead
      have hrest : rest = b.vals.drop (it.currentValOffset + 1) := by
        have := congrArg List.tail hdrop
        simpa [List.tail_drop] using this.symm
      by_cases hlast : it.currentValOffset + 1 = b.vals.length
      · -- The last value of the bucket: the iterator moves on to the next one in the range.
        have hnil : rest = [] := by
          rw [hrest]
          exact List.drop_eq_nil_iff.2 (by omega)
        obtain ⟨l, hl, hf⟩ := h.linked.next_node
          (show sl.header :: (as ++ b :: cs).map Bucket.tag =
            (sl.header :: as.map Bucket.tag) ++ b.tag :: cs.map Bucket.tag by simp)
        have hassoc : as ++ b :: cs = (as ++ [b]) ++ cs := by simp
        have hclipped : Secondary.clipNode compare sl.nodes it.rangeMax it.maxExclusive
            (cs.head?.map Bucket.tag) =
              .ok ((cs.takeWhile fun d => !above d.key).head?.map Bucket.tag) :=
          Rep.clipNode (by rwa [← hassoc]) (by rwa [← hassoc])
        refine ⟨{ it with
            current := (cs.takeWhile fun d => !above d.key).head?.map Bucket.tag
            currentValOffset := 0 }, ?_, rfl, rfl, ?_⟩
        · have hf' : l.forward = cs.head?.map Bucket.tag := by simpa using hf
          simp [skiplistIteratorNext, current, Nodes.node, hn, hnvals, hget, offset, hlast,
            Nodes.levelAt_of_some hl, hf', hclipped, hdrop]
        · have hadv : advance ({ b with vals := b.vals.drop it.currentValOffset } ::
              cs.takeWhile fun d => !above d.key) = cs.takeWhile fun d => !above d.key := by
            simp [advance, hdrop, hnil]
          rw [hadv]
          exact IterAt.of_suffix hassoc hvals rfl rfl
      · -- More values of this bucket are still to come.
        obtain ⟨w, rest', hcons⟩ : ∃ w rest', rest = w :: rest' := by
          cases hr : rest with
          | nil =>
              have := List.drop_eq_nil_iff.1 (hrest.symm.trans hr)
              omega
          | cons w rest' => exact ⟨w, rest', rfl⟩
        refine ⟨{ it with currentValOffset := it.currentValOffset + 1 }, ?_, rfl, rfl, ?_⟩
        · simp [skiplistIteratorNext, current, Nodes.node, hn, hnvals, hget, offset, hlast, hdrop]
        · have hadv : advance ({ b with vals := b.vals.drop it.currentValOffset } ::
              cs.takeWhile fun d => !above d.key) =
              { b with vals := b.vals.drop (it.currentValOffset + 1) } ::
                cs.takeWhile fun d => !above d.key := by
            simp [advance, hdrop, ← hrest, hcons]
          rw [hadv]
          exact .at as b cs rfl current (by
            show it.currentValOffset + 1 < b.vals.length
            omega) within

end Secondary
