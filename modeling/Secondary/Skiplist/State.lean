import Secondary.Skiplist.Links

/-!
# State — the representation invariant of a skiplist

`Linked sl as` says that the pointers, spans, heights, backward pointers, tail, level and length
of `sl` are those of a skiplist whose level-0 nodes are `as`.  `Rep sl bs` adds what the nodes
hold: `sl` is a skiplist whose contents, read along level 0, are the buckets `bs`.  Every search
of a linked skiplist that passes an initial segment ends where `SearchOk` says.
-/

namespace Secondary

open Lib

variable {K V O : Type}

/-! ## Splitting lists -/

/-- A cell of a concatenation stands in one of the two parts. -/
theorem append_eq_split {α : Type} {as bs pre suf : List α} {c : α}
    (h : as ++ bs = pre ++ c :: suf) :
    (∃ as', as = pre ++ c :: as' ∧ suf = as' ++ bs) ∨
      ∃ bs', pre = as ++ bs' ∧ bs = bs' ++ c :: suf := by
  rcases List.append_eq_append_iff.1 h with ⟨bs', hpre, hbs⟩ | ⟨as', has, hsuf⟩
  · exact Or.inr ⟨bs', hpre, hbs⟩
  · cases as' with
    | nil =>
        refine Or.inr ⟨[], by simpa using has.symm, ?_⟩
        simpa using hsuf.symm
    | cons a as' =>
        have hcons : c :: suf = a :: (as' ++ bs) := by simpa using hsuf
        obtain ⟨rfl, rfl⟩ := List.cons.inj hcons
        exact Or.inl ⟨as', has, rfl⟩

/-- In a list without duplicates a cell splits it in one way. -/
theorem split_unique {α : Type} {pre pre' suf suf' : List α} {c : α}
    (hnd : (pre ++ c :: suf).Nodup) (h : pre ++ c :: suf = pre' ++ c :: suf') :
    pre = pre' ∧ suf = suf' := by
  induction pre generalizing pre' with
  | nil =>
      cases pre' with
      | nil => exact ⟨rfl, by simpa using h⟩
      | cons a pre' =>
          obtain ⟨rfl, rfl⟩ := List.cons.inj (show c :: suf = a :: (pre' ++ c :: suf') from h)
          simp at hnd
  | cons b pre ih =>
      cases pre' with
      | nil =>
          obtain ⟨rfl, rfl⟩ := List.cons.inj (show b :: (pre ++ c :: suf) = c :: suf' from h)
          simp at hnd
      | cons a pre' =>
          obtain ⟨rfl, htail⟩ :=
            List.cons.inj (show b :: (pre ++ c :: suf) = a :: (pre' ++ c :: suf') from h)
          obtain ⟨rfl, rfl⟩ := ih (List.nodup_cons.1 hnd).2 htail
          exact ⟨rfl, rfl⟩

/-! ## Backward pointers -/

/-- Along `as`, every backward pointer names the node before; the first one is `p`. -/
def Backs (ns : Nodes K V) : Option Nat → List Nat → Prop
  | _, [] => True
  | p, a :: as => ns.backAt? a = some p ∧ Backs ns (some a) as

theorem backs_append {ns : Nodes K V} {as bs : List Nat} :
    ∀ {p : Option Nat},
      Backs ns p (as ++ bs) ↔ Backs ns p as ∧ Backs ns (as.getLast?.or p) bs := by
  induction as with
  | nil => simp [Backs]
  | cons a as ih =>
      intro p
      have hlast : (a :: as).getLast?.or p = as.getLast?.or (some a) := by
        cases h : as.getLast? with
        | none => simp [List.getLast?_eq_none_iff.1 h]
        | some l => simp [List.getLast?_cons, h]
      simp only [List.cons_append, Backs, ih, hlast]
      exact and_assoc.symm

theorem Backs.congr {ns ms : Nodes K V} {as : List Nat} (h : ∀ a ∈ as, ns.backAt? a = ms.backAt? a) :
    ∀ {p : Option Nat}, Backs ns p as → Backs ms p as := by
  induction as with
  | nil => simp [Backs]
  | cons a as ih =>
      intro p hb
      refine ⟨?_, ih (fun x hx => h x (by simp [hx])) hb.2⟩
      rw [← h a (by simp)]
      exact hb.1

/-! ## The invariant -/

structure Linked (sl : Skiplist K V) (as : List Nat) : Prop where
  nodup : (sl.header :: as).Nodup
  level_pos : 1 ≤ sl.level
  level_le : sl.level ≤ skiplistMaxLevel
  header_height : sl.nodes.height sl.header = skiplistMaxLevel
  height_pos : ∀ a ∈ as, 1 ≤ sl.nodes.height a
  height_le : ∀ a ∈ as, sl.nodes.height a ≤ sl.level
  links : Links sl.nodes (sl.header :: as) sl.level
  /-- Levels that are not in use have a NULL forward pointer in the header. -/
  above : ∀ i, sl.level ≤ i → i < skiplistMaxLevel →
    ∃ l, sl.nodes.levelAt? sl.header i = some l ∧ l.forward = none
  /-- The level is no higher than it must be. -/
  top : sl.level = 1 ∨ ∃ a ∈ as, sl.nodes.height a = sl.level
  back : Backs sl.nodes none as
  tail : sl.tail = as.getLast?
  length : sl.length = as.length

/-- `sl` is a skiplist with the contents `bs`. -/
structure Rep (sl : Skiplist K V) (bs : List (Bucket K V)) : Prop where
  linked : Linked sl (bs.map Bucket.tag)
  header_vals : sl.nodes.valsAt? sl.header = some []
  obj : ∀ b ∈ bs, sl.nodes.objAt? b.tag = some b.key
  vals : ∀ b ∈ bs, sl.nodes.valsAt? b.tag = some b.vals
  /-- No other node has an object. -/
  only : ∀ x k, sl.nodes.objAt? x = some k → ∃ b ∈ bs, b.tag = x

/-- The header of a new skiplist, with links to the end on all its levels. -/
theorem cell_create : (skiplistCreate K V).nodes.cell (skiplistCreate K V).header =
    some { obj := none
           vals := []
           backward := none
           level := List.replicate skiplistMaxLevel { forward := none, span := 0 } } :=
  Store.cell_alloc_self _ _

theorem levelAt?_create {i : Nat} (hi : i < skiplistMaxLevel) :
    (skiplistCreate K V).nodes.levelAt? (skiplistCreate K V).header i =
      some { forward := none, span := 0 } := by
  simp [Nodes.levelAt?, cell_create, hi]

theorem linked_create : Linked (skiplistCreate K V) [] where
  nodup := by simp
  level_pos := Nat.le_refl 1
  level_le := by
    show 1 ≤ skiplistMaxLevel
    decide
  header_height := by simp [Nodes.height, cell_create]
  height_pos := by simp
  height_le := by simp
  links := by
    intro pre c suf hsplit i hi _
    have hnil : pre = [] ∧ c = (skiplistCreate K V).header ∧ suf = [] := by
      cases pre with
      | nil => simpa [eq_comm] using hsplit
      | cons p pre => simp at hsplit
    obtain ⟨rfl, rfl, rfl⟩ := hnil
    have hmax : (skiplistCreate K V).level ≤ skiplistMaxLevel := by
      show 1 ≤ skiplistMaxLevel
      decide
    exact levelAt?_create (by omega)
  above := fun _ _ hi => ⟨_, levelAt?_create hi, rfl⟩
  top := Or.inl rfl
  back := trivial
  tail := rfl
  length := rfl

theorem rep_create : Rep (skiplistCreate K V) [] where
  linked := linked_create
  header_vals := by simp [Nodes.valsAt?, cell_create]
  obj := by simp
  vals := (by simp)
  only := by
    intro x k hx
    by_cases hheader : x = (skiplistCreate K V).header
    · rw [hheader, Nodes.objAt?, cell_create] at hx
      cases hx
    · have hnone : (skiplistCreate K V).nodes.cell x = none :=
        (Store.cell_alloc_of_ne _ _ hheader).trans (Store.cell_empty x)
      rw [Nodes.objAt?, hnone] at hx
      cases hx

theorem link_zero {ht : Nat → Nat} {bs : List Nat} (h : ∀ b ∈ bs, 1 ≤ ht b) :
    (link ht 0 bs).forward = bs.head? := by
  cases bs with
  | nil => rfl
  | cons b bs =>
      have hb : 0 < ht b := h b (by simp)
      simp [link, hb]

namespace Linked

variable {sl : Skiplist K V} {as bs : List Nat}

theorem header_notMem (h : Linked sl as) : sl.header ∉ as :=
  (List.nodup_cons.1 h.nodup).1

theorem height_cell (h : Linked sl as) {c : Nat} (hc : c ∈ sl.header :: as) :
    1 ≤ sl.nodes.height c := by
  rcases List.mem_cons.1 hc with rfl | hc
  · rw [h.header_height]
    decide
  · exact h.height_pos c hc

theorem lt_next (h : Linked sl as) {c : Nat} (hc : c ∈ sl.header :: as) : c < sl.nodes.next :=
  Nodes.lt_next_of_height (h.height_cell hc)

/-- The chain is no longer than the number of nodes ever allocated, so no search loops. -/
theorem length_le_next (h : Linked sl as) : (sl.header :: as).length ≤ sl.nodes.next := by
  have hsub : (sl.header :: as).Subperm (List.range sl.nodes.next) :=
    List.Nodup.subperm h.nodup fun c hc => List.mem_range.2 (h.lt_next hc)
  simpa using hsub.length_le

/-- The level-0 pointer of a node leads to the node behind it. -/
theorem next_node (h : Linked sl as) {pre suf : List Nat} {c : Nat}
    (hsplit : sl.header :: as = pre ++ c :: suf) :
    ∃ l, sl.nodes.levelAt? c 0 = some l ∧ l.forward = suf.head? := by
  have hc : 1 ≤ sl.nodes.height c := h.height_cell (by rw [hsplit]; simp)
  refine ⟨_, h.links pre c suf hsplit 0 h.level_pos hc, link_zero fun b hb => ?_⟩
  exact h.height_cell (by rw [hsplit]; simp [hb])

theorem header_next (h : Linked sl as) :
    ∃ l, sl.nodes.levelAt? sl.header 0 = some l ∧ l.forward = as.head? :=
  h.next_node (show sl.header :: as = [] ++ sl.header :: as from rfl)

/-- The invariant reads the levels and the backward pointers of its own nodes alone. -/
theorem withNodes (h : Linked sl as) {ns : Nodes K V}
    (hht : ∀ c ∈ sl.header :: as, ns.height c = sl.nodes.height c)
    (hlev : ∀ c ∈ sl.header :: as, ∀ i, ns.levelAt? c i = sl.nodes.levelAt? c i)
    (hback : ∀ c ∈ as, ns.backAt? c = sl.nodes.backAt? c) : Linked { sl with nodes := ns } as where
  nodup := h.nodup
  level_pos := h.level_pos
  level_le := h.level_le
  header_height := (hht sl.header (by simp)).trans h.header_height
  height_pos := by
    intro a ha
    rw [hht a (by simp [ha])]
    exact h.height_pos a ha
  height_le := by
    intro a ha
    rw [hht a (by simp [ha])]
    exact h.height_le a ha
  links := by
    intro pre c suf hsplit i hi hc
    have hc' : c ∈ sl.header :: as := by
      rw [hsplit]
      simp
    -- The next node of a level depends on the heights only.
    have hsuf : link ns.height i suf = link sl.nodes.height i suf := by
      refine link_congr fun b hb => hht b ?_
      rw [hsplit]
      simp [hb]
    rw [hht c hc'] at hc
    rw [hlev c hc', hsuf]
    exact h.links pre c suf hsplit i hi hc
  above := by
    intro i hi hmax
    obtain ⟨l, hl, hf⟩ := h.above i hi hmax
    exact ⟨l, (hlev sl.header (by simp) i).trans hl, hf⟩
  top := by
    rcases h.top with hone | ⟨a, ha, hatop⟩
    · exact Or.inl hone
    · exact Or.inr ⟨a, ha, (hht a (by simp [ha])).trans hatop⟩
  back := h.back.congr fun a ha => (hback a ha).symm
  tail := h.tail
  length := h.length

end Linked

namespace Rep

variable {sl : Skiplist K V} {as bs : List (Bucket K V)} {b : Bucket K V}

theorem nodup_tags (h : Rep sl bs) : (bs.map Bucket.tag).Nodup :=
  (List.nodup_cons.1 h.linked.nodup).2

theorem tag_ne_header (h : Rep sl bs) (hb : b ∈ bs) : b.tag ≠ sl.header := by
  intro heq
  exact h.linked.header_notMem (heq ▸ List.mem_map_of_mem hb)

/-- The bucket at one place has its tag for itself. -/
theorem tag_ne (h : Rep sl (as ++ b :: bs)) {d : Bucket K V} (hd : d ∈ as ∨ d ∈ bs) :
    d.tag ≠ b.tag := by
  have hnd := h.nodup_tags
  rw [List.map_append, List.map_cons, List.nodup_middle] at hnd
  intro heq
  refine (List.nodup_cons.1 hnd).1 ?_
  rw [← heq, ← List.map_append]
  refine List.mem_map_of_mem ?_
  simpa using hd

/-- Writing the values of one node changes the values of its bucket. -/
theorem setVals (h : Rep sl (as ++ b :: bs)) (vs : List V) :
    Rep { sl with nodes := sl.nodes.setVals b.tag vs } (as ++ { b with vals := vs } :: bs) where
  linked := by
    have hlinked : Linked { sl with nodes := sl.nodes.setVals b.tag vs } _ := h.linked.withNodes
      (fun _ _ => congrFun (Nodes.height_setVals _ _ _) _)
      (fun c _ i => Nodes.levelAt?_setVals _ _ c i _)
      (fun c _ => Nodes.backAt?_setVals _ _ c _)
    simpa using hlinked
  header_vals := by
    have hne := (h.tag_ne_header (b := b) (by simp)).symm
    rw [Nodes.valsAt?_setVals, if_neg hne]
    exact h.header_vals
  obj := by
    intro d hd
    rw [Nodes.objAt?_setVals]
    rcases List.mem_append.1 hd with hd | hd
    · exact h.obj d (by simp [hd])
    · rcases List.mem_cons.1 hd with rfl | hd
      · exact h.obj b (by simp)
      · exact h.obj d (by simp [hd])
  vals := by
    -- Tags are different, so no other node changes.
    have hother : ∀ d : Bucket K V, d ∈ as ∨ d ∈ bs →
        (sl.nodes.setVals b.tag vs).valsAt? d.tag = some d.vals := by
      intro d hd
      rw [Nodes.valsAt?_setVals, if_neg (h.tag_ne hd)]
      refine h.vals d ?_
      simp only [List.mem_append, List.mem_cons]
      tauto
    intro d hd
    rcases List.mem_append.1 hd with hd | hd
    · exact hother d (Or.inl hd)
    · rcases List.mem_cons.1 hd with rfl | hd
      · rw [Nodes.valsAt?_setVals, if_pos rfl, h.vals b (by simp)]
        rfl
      · exact hother d (Or.inr hd)
  only := by
    intro x k hx
    rw [Nodes.objAt?_setVals] at hx
    obtain ⟨d, hd, rfl⟩ := h.only x k hx
    rcases List.mem_append.1 hd with hd | hd
    · exact ⟨d, by simp [hd], rfl⟩
    · rcases List.mem_cons.1 hd with rfl | hd
      · exact ⟨{ d with vals := vs }, by simp, rfl⟩
      · exact ⟨d, by simp [hd], rfl⟩

end Rep

/-! ## Searching a linked skiplist -/

/-- Where a search that passes `as` and stops before `bs` ends. -/
structure SearchOk (sl : Skiplist K V) (as bs : List Nat) (y : Nat) (update : List (Nat × Nat)) :
    Prop where
  updateOk : UpdateOk sl.nodes.height (sl.header :: as) sl.level update
  first : update[0]? = some (y, as.length)
  last : ∃ pre, sl.header :: as = pre ++ [y]
  next : ∃ l, sl.nodes.levelAt? y 0 = some l ∧ l.forward = bs.head?

theorem skiplistSearch_spec {sl : Skiplist K V} {pass : K → Exec Bool} {as bs : List Nat}
    (h : Linked sl (as ++ bs)) (hsplits : Splits sl.nodes pass as bs) :
    ∃ y update, skiplistSearch sl pass = .ok (y, update) ∧ SearchOk sl as bs y update := by
  have hlinks : Links sl.nodes ((sl.header :: as) ++ bs) sl.level := h.links
  have hlen : (sl.header :: as).length ≤ sl.nodes.next := by
    have := h.length_le_next
    simp at this ⊢
    omega
  have hheader : sl.level ≤ sl.nodes.height sl.header := by
    rw [h.header_height]
    exact h.level_le
  obtain ⟨y, update, hdesc, hupd, _, hpos⟩ :=
    descend_spec hlinks hsplits hlen sl.level (Nat.le_refl _) [] sl.header as rfl hheader
  obtain ⟨r, hr⟩ := hpos h.level_pos
  obtain ⟨pre, hpre, hrank⟩ : ∃ pre, sl.header :: as = pre ++ [y] ∧ r = pre.length := by
    obtain ⟨pre, post, hcells, _, hlow, hrank⟩ := hupd.last hr
    -- Every node has a level 0, so nothing can stand behind the last one that reaches it.
    have hpost : post = [] := by
      cases post with
      | nil => rfl
      | cons b post =>
          have hb : b ∈ sl.header :: as := by
            rw [hcells]
            simp
          have hone := h.height_cell (c := b) (by
            rcases List.mem_cons.1 hb with rfl | hb
            · simp
            · simp [hb])
          have := hlow b (by simp)
          omega
    exact ⟨pre, by rw [hcells, hpost], hrank⟩
  have hr' : update[0]? = some (y, as.length) := by
    have := congrArg List.length hpre
    simp at this
    rw [hr, hrank, this]
  refine ⟨y, update, hdesc, hupd, hr', ⟨pre, hpre⟩, ?_⟩
  have hsplit : sl.header :: (as ++ bs) = pre ++ y :: bs := by
    have := congrArg (· ++ bs) hpre
    simpa using this
  exact h.next_node hsplit

theorem matchNext_of_nil {ns : Nodes K V} {compare : K → O → Exec Int} {obj : O} {y : Nat}
    {l : SkiplistLevel} (hl : ns.levelAt? y 0 = some l) (hf : l.forward = none) :
    matchNext ns compare obj y = .ok none := by
  simp [matchNext, Nodes.levelAt_of_some hl, hf]

theorem matchNext_of_cons {ns : Nodes K V} {compare : K → O → Exec Int} {obj : O} {y f : Nat}
    {l : SkiplistLevel} {k : K} {c : Int} (hl : ns.levelAt? y 0 = some l)
    (hf : l.forward = some f) (hk : ns.objAt? f = some k) (hc : compare k obj = .ok c) :
    matchNext ns compare obj y = .ok (if c = 0 then some f else none) := by
  simp [matchNext, Nodes.levelAt_of_some hl, hf, Nodes.objAt_of_some hk, hc]

/-! ## Searching by a comparison -/

/-- The comparison against the sought object is defined on every key and equals `c`. -/
def Compares (compare : K → O → Exec Int) (obj : O) (c : K → Int) (bs : List (Bucket K V)) : Prop :=
  ∀ b ∈ bs, compare b.key obj = .ok (c b.key)

/-- A search by `pass` splits a represented list where the pure predicate `p` does. -/
theorem Rep.splits {sl : Skiplist K V} {pass : K → Exec Bool} {p : K → Bool}
    {as bs : List (Bucket K V)} (h : Rep sl (as ++ bs))
    (hpass : ∀ b ∈ as ++ bs, pass b.key = .ok (p b.key)) (has : ∀ a ∈ as, p a.key = true)
    (hbs : ∀ b ∈ bs, p b.key = false) :
    Splits sl.nodes pass (as.map Bucket.tag) (bs.map Bucket.tag) where
  passed := by
    intro t ht
    obtain ⟨a, ha, rfl⟩ := List.mem_map.1 ht
    refine ⟨a.key, h.obj a (by simp [ha]), ?_⟩
    rw [hpass a (by simp [ha]), has a ha]
  stop := by
    intro t ht
    obtain ⟨b, hb, rfl⟩ := List.mem_map.1 ht
    refine ⟨b.key, h.obj b (by simp [hb]), ?_⟩
    rw [hpass b (by simp [hb]), hbs b hb]

theorem Rep.search {sl : Skiplist K V} {pass : K → Exec Bool} {p : K → Bool}
    {as bs : List (Bucket K V)} (h : Rep sl (as ++ bs))
    (hpass : ∀ b ∈ as ++ bs, pass b.key = .ok (p b.key)) (has : ∀ a ∈ as, p a.key = true)
    (hbs : ∀ b ∈ bs, p b.key = false) :
    ∃ y update, skiplistSearch sl pass = .ok (y, update) ∧
      SearchOk sl (as.map Bucket.tag) (bs.map Bucket.tag) y update := by
  have hlinked : Linked sl (as.map Bucket.tag ++ bs.map Bucket.tag) := by
    simpa using h.linked
  exact skiplistSearch_spec hlinked (h.splits hpass has hbs)

/-- The node after the end of a search for `obj` is the one that compares equal, if there is. -/
theorem Rep.matchNext {sl : Skiplist K V} {compare : K → O → Exec Int} {obj : O} {c : K → Int}
    {as bs : List (Bucket K V)} (h : Rep sl (as ++ bs)) (hc : Compares compare obj c (as ++ bs))
    {y : Nat} {update : List (Nat × Nat)}
    (hs : SearchOk sl (as.map Bucket.tag) (bs.map Bucket.tag) y update) :
    Secondary.matchNext sl.nodes compare obj y =
      .ok (match bs with
        | [] => none
        | b :: _ => if c b.key = 0 then some b.tag else none) := by
  obtain ⟨l, hl, hf⟩ := hs.next
  cases bs with
  | nil => exact matchNext_of_nil hl (by simpa using hf)
  | cons b bs =>
      exact matchNext_of_cons hl (by simpa using hf) (h.obj b (by simp)) (hc b (by simp))

end Secondary
