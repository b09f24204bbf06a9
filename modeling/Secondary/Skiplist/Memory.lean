import Secondary.Skiplist.Delete

/-!
# Memory — which objects a skiplist holds and compares

A skiplist does not look into its objects: it gives those of its nodes to the comparator, and
keeps them until the node is freed.  All this holds whatever the comparator answers, so nothing
here needs the list to be sorted, or linked as it should be.
-/

namespace Secondary

open Lib

variable {K V O α : Type}

/-- The computation reads no key that has been released. -/
abbrev ReadsLive (x : Exec α) : Prop :=
  Avoids x Fault.released

namespace Nodes

variable {ns : Nodes K V} {x i : Nat}

theorem readsLive_levelAt : ReadsLive (ns.levelAt x i) :=
  avoids_orFault (by decide)

theorem readsLive_node : ReadsLive (ns.node x) :=
  avoids_orFault (by decide)

theorem readsLive_objAt : ReadsLive (ns.objAt x) :=
  avoids_orFault (by decide)

theorem objAt_eq_ok {k : K} (h : ns.objAt x = .ok k) : ns.objAt? x = some k :=
  orFault_eq_ok.1 h

end Nodes

/-! ## Searching -/

/-- What is asked about the objects of the nodes does not fail with `e`. -/
def AsksAvoiding (e : Fault) (ns : Nodes K V) (ask : K → Exec α) : Prop :=
  ∀ x k, ns.objAt? x = some k → Avoids (ask k) e

/-- What is asked about the objects of the nodes reads no released key. -/
def AsksLive (ns : Nodes K V) (ask : K → Exec α) : Prop :=
  ∀ x k, ns.objAt? x = some k → ReadsLive (ask k)

section Search

variable {e : Fault} {ns : Nodes K V} {sl : Skiplist K V} {pass : K → Exec Bool}
  {compare : K → O → Exec Int} {obj : O}

/-- An answer to a comparison fails as the comparison does. -/
theorem AsksAvoiding.answer (h : AsksAvoiding e ns fun k => compare k obj) (g : Int → α) :
    AsksAvoiding e ns fun k => compare k obj >>= fun c => .ok (g c) :=
  fun x k hk => (h x k hk).bind fun _ _ => avoids_ok _

/-- An answer to a comparison reads what the comparison reads. -/
theorem AsksLive.answer (h : AsksLive ns fun k => compare k obj) (g : Int → α) :
    AsksLive ns fun k => compare k obj >>= fun c => .ok (g c) :=
  AsksAvoiding.answer h g

variable (hnode : Fault.node ≠ e) (hdiverges : Fault.diverges ≠ e)

include hnode hdiverges

theorem avoids_walkLevel (h : AsksAvoiding e ns pass) (i : Nat) :
    ∀ fuel x rank, Avoids (walkLevel ns pass i fuel x rank) e
  | 0, _, _ => avoids_error hdiverges
  | fuel + 1, x, rank => by
      refine (avoids_orFault hnode).bind fun l _ => ?_
      cases l.forward with
      | none => exact avoids_ok _
      | some f =>
          refine (avoids_orFault hnode).bind fun k hk => ?_
          refine (h f k (Nodes.objAt_eq_ok hk)).bind fun b _ => ?_
          cases b with
          | true => exact avoids_walkLevel h i fuel f _
          | false => exact avoids_ok _

theorem avoids_descend (h : AsksAvoiding e ns pass) :
    ∀ n x rank, Avoids (descend ns pass n x rank) e
  | 0, _, _ => avoids_ok _
  | n + 1, x, rank => by
      refine (avoids_walkLevel hnode hdiverges h n ns.next x rank).bind fun u _ => ?_
      exact (avoids_descend h n u.1 u.2).bind fun _ _ => avoids_ok _

/-- A search fails as what it asks does, but for broken links. -/
theorem avoids_skiplistSearch (h : AsksAvoiding e sl.nodes pass) :
    Avoids (skiplistSearch sl pass) e :=
  avoids_descend hnode hdiverges h _ _ _

theorem avoids_skiplistFindAtLeast (h : AsksAvoiding e sl.nodes fun k => compare k obj)
    (exclusive : Bool) : Avoids (skiplistFindAtLeast compare sl obj exclusive) e :=
  (avoids_skiplistSearch hnode hdiverges (h.answer _)).bind fun _ _ =>
    (avoids_orFault hnode).bind fun _ _ => avoids_ok _

omit hnode hdiverges

theorem readsLive_skiplistSearch (h : AsksLive sl.nodes pass) :
    ReadsLive (skiplistSearch sl pass) :=
  avoids_skiplistSearch (by decide) (by decide) h

theorem readsLive_matchNext (h : AsksLive ns fun k => compare k obj) (x : Nat) :
    ReadsLive (matchNext ns compare obj x) := by
  refine Nodes.readsLive_levelAt.bind fun l _ => ?_
  cases l.forward with
  | none => exact avoids_ok _
  | some f =>
      refine Nodes.readsLive_objAt.bind fun k hk => ?_
      exact (h f k (Nodes.objAt_eq_ok hk)).bind fun _ _ => avoids_ok _

theorem readsLive_skiplistFind (h : AsksLive sl.nodes fun k => compare k obj) :
    ReadsLive (skiplistFind compare sl obj) :=
  (readsLive_skiplistSearch (h.answer _)).bind fun r _ => readsLive_matchNext h r.1

end Search

/-! ## Iterating -/

section Iterate

variable {e : Fault} {ns : Nodes K V} {sl : Skiplist K V} {compare : K → O → Exec Int}

section Avoids

variable (hnode : Fault.node ≠ e)

include hnode

/-- Comparing with the end of a range. -/
theorem avoids_clipNode {max : Option O}
    (h : ∀ m ∈ max, AsksAvoiding e ns fun k => compare k m) (exclusive : Bool) (n : Option Nat) :
    Avoids (clipNode compare ns max exclusive n) e := by
  cases n with
  | none => exact avoids_ok _
  | some x =>
      cases max with
      | none => exact avoids_ok _
      | some m =>
          refine (avoids_orFault hnode).bind fun k hk => ?_
          refine ((h m rfl).answer _ x k (Nodes.objAt_eq_ok hk)).bind fun b _ => ?_
          cases b <;> exact avoids_ok _

theorem avoids_skiplistIterateRange (hdiverges : Fault.diverges ≠ e) {min : O} {max : Option O}
    (hmin : AsksAvoiding e sl.nodes fun k => compare k min)
    (hmax : ∀ m ∈ max, AsksAvoiding e sl.nodes fun k => compare k m)
    (minExclusive maxExclusive : Bool) :
    Avoids (skiplistIterateRange compare sl min max minExclusive maxExclusive) e :=
  (avoids_skiplistFindAtLeast hnode hdiverges hmin minExclusive).bind fun n _ =>
    (avoids_clipNode hnode hmax maxExclusive n).bind fun _ _ => avoids_ok _

theorem avoids_skiplistIteratorNext {it : SkiplistIterator O}
    (hmax : ∀ m ∈ it.rangeMax, AsksAvoiding e sl.nodes fun k => compare k m) :
    Avoids (skiplistIteratorNext compare sl it) e := by
  unfold skiplistIteratorNext
  cases it.current with
  | none => exact avoids_ok _
  | some x =>
      refine (avoids_orFault hnode).bind fun n _ => ?_
      dsimp only
      split_ifs
      · exact (avoids_orFault hnode).bind fun l _ =>
          (avoids_clipNode hnode hmax it.maxExclusive l.forward).bind fun _ _ => avoids_ok _
      · exact avoids_ok _
      · exact (avoids_orFault hnode).bind fun l _ =>
          (avoids_clipNode hnode hmax it.maxExclusive l.forward).bind fun _ _ => avoids_ok _
      · exact avoids_ok _

end Avoids

theorem readsLive_skiplistIterateRange {min : O} {max : Option O}
    (hmin : AsksLive sl.nodes fun k => compare k min)
    (hmax : ∀ m ∈ max, AsksLive sl.nodes fun k => compare k m) (minExclusive maxExclusive : Bool) :
    ReadsLive (skiplistIterateRange compare sl min max minExclusive maxExclusive) :=
  avoids_skiplistIterateRange (by decide) (by decide) hmin hmax minExclusive maxExclusive

theorem readsLive_skiplistIteratorNext {it : SkiplistIterator O}
    (hmax : ∀ m ∈ it.rangeMax, AsksLive sl.nodes fun k => compare k m) :
    ReadsLive (skiplistIteratorNext compare sl it) :=
  avoids_skiplistIteratorNext (by decide) hmax

end Iterate

/-! ## Loops over levels -/

section Loops

variable {step : Nat → Nat × Nat → Nodes K V → Exec (Nodes K V)}

theorem readsLive_forLevels (h : ∀ i u ns, ReadsLive (step i u ns)) :
    ∀ i us ns, ReadsLive (forLevels step i us ns)
  | _, [], _ => avoids_ok _
  | i, u :: us, ns => (h i u ns).bind fun ns' _ => readsLive_forLevels h (i + 1) us ns'

/-- A loop whose body changes only levels does so too. -/
theorem sameNodes_forLevels
    (h : ∀ i u ns ns', step i u ns = .ok ns' → Nodes.SameNodes ns ns') :
    ∀ i us ns ns', forLevels step i us ns = .ok ns' → Nodes.SameNodes ns ns'
  | _, [], ns, ns', hrun => by
      obtain rfl := Except.ok.inj hrun
      exact .refl ns
  | i, u :: us, ns, ns', hrun => by
      obtain ⟨ns₁, hstep, hrest⟩ := bind_eq_ok.1 hrun
      exact (h i u ns ns₁ hstep).trans (sameNodes_forLevels h (i + 1) us ns₁ ns' hrest)

variable (x : Nat)

theorem readsLive_linkLevel (rank0 i : Nat) (u : Nat × Nat) (ns : Nodes K V) :
    ReadsLive (linkLevel x rank0 i u ns) :=
  Nodes.readsLive_levelAt.bind fun _ _ => Nodes.readsLive_levelAt.bind fun _ _ => avoids_ok _

theorem sameNodes_linkLevel (rank0 i : Nat) (u : Nat × Nat) (ns ns' : Nodes K V)
    (h : linkLevel x rank0 i u ns = .ok ns') : Nodes.SameNodes ns ns' := by
  obtain ⟨_, _, h⟩ := bind_eq_ok.1 h
  obtain ⟨_, _, h⟩ := bind_eq_ok.1 h
  obtain rfl := Except.ok.inj h
  exact (Nodes.sameNodes_updLevel ns x i _).trans (Nodes.sameNodes_updLevel _ u.1 i _)

theorem readsLive_touchLevel (i : Nat) (u : Nat × Nat) (ns : Nodes K V) :
    ReadsLive (touchLevel i u ns) :=
  Nodes.readsLive_levelAt.bind fun _ _ => avoids_ok _

theorem sameNodes_touchLevel (i : Nat) (u : Nat × Nat) (ns ns' : Nodes K V)
    (h : touchLevel i u ns = .ok ns') : Nodes.SameNodes ns ns' := by
  obtain ⟨_, _, h⟩ := bind_eq_ok.1 h
  obtain rfl := Except.ok.inj h
  exact Nodes.sameNodes_updLevel ns u.1 i _

theorem readsLive_unlinkLevel (i : Nat) (u : Nat × Nat) (ns : Nodes K V) :
    ReadsLive (unlinkLevel x i u ns) := by
  refine Nodes.readsLive_levelAt.bind fun lu _ => ?_
  split_ifs
  · exact Nodes.readsLive_levelAt.bind fun _ _ => avoids_ok _
  · exact avoids_ok _

theorem sameNodes_unlinkLevel (i : Nat) (u : Nat × Nat) (ns ns' : Nodes K V)
    (h : unlinkLevel x i u ns = .ok ns') : Nodes.SameNodes ns ns' := by
  obtain ⟨lu, _, h⟩ := bind_eq_ok.1 h
  split_ifs at h
  · obtain ⟨_, _, h⟩ := bind_eq_ok.1 h
    obtain rfl := Except.ok.inj h
    exact Nodes.sameNodes_updLevel ns u.1 i _
  · obtain rfl := Except.ok.inj h
    exact Nodes.sameNodes_updLevel ns u.1 i _

theorem readsLive_shrinkLevel (ns : Nodes K V) (header : Nat) :
    ∀ n, ReadsLive (shrinkLevel ns header n)
  | 0 => avoids_ok _
  | n + 1 => by
      unfold shrinkLevel
      split_ifs
      · exact avoids_ok _
      · refine Nodes.readsLive_levelAt.bind fun l _ => ?_
        split_ifs
        · exact readsLive_shrinkLevel ns header n
        · exact avoids_ok _

end Loops

/-! ## Inserting -/

section Insert

variable {sl sl' : Skiplist K V} {compare : K → K → Exec Int} {valcmp : V → V → Int} {obj : K}
  {val : V} {level : Level} {update : List (Nat × Nat)}

theorem readsLive_skiplistInsertNode :
    ReadsLive (skiplistInsertNode sl obj val level update) := by
  refine (avoids_orFault (by decide)).bind fun u0 _ => ?_
  refine (readsLive_forLevels (readsLive_linkLevel _ u0.2) 0 _ _).bind fun ns₁ _ => ?_
  refine (readsLive_forLevels readsLive_touchLevel level.val _ ns₁).bind fun ns₂ _ => ?_
  exact Nodes.readsLive_levelAt.bind fun _ _ => avoids_ok _

theorem readsLive_skiplistInsert (h : AsksLive sl.nodes fun k => compare k obj) :
    ReadsLive (skiplistInsert compare valcmp sl obj val level) := by
  refine (readsLive_skiplistSearch (h.answer _)).bind fun r _ => ?_
  refine (readsLive_matchNext h r.1).bind fun n _ => ?_
  cases n with
  | none => exact readsLive_skiplistInsertNode
  | some n => exact Nodes.readsLive_node.bind fun _ _ => avoids_ok _

/-- A new node has the new object, and the others keep theirs. -/
theorem objAt?_skiplistInsertNode (h : skiplistInsertNode sl obj val level update = .ok sl')
    (x : Nat) :
    sl'.nodes.objAt? x = if x = sl.nodes.next then some obj else sl.nodes.objAt? x := by
  obtain ⟨u0, _, h⟩ := bind_eq_ok.1 h
  obtain ⟨ns₁, hlink, h⟩ := bind_eq_ok.1 h
  obtain ⟨ns₂, htouch, h⟩ := bind_eq_ok.1 h
  obtain ⟨lx, _, h⟩ := bind_eq_ok.1 h
  obtain rfl := Except.ok.inj h
  have hsame := (sameNodes_forLevels (sameNodes_linkLevel _ u0.2) 0 _ _ _ hlink).trans
    (sameNodes_forLevels sameNodes_touchLevel level.val _ _ _ htouch)
  have hobj : ns₂.objAt? x = (allocated sl obj val level.val (level.val - sl.level)).objAt? x :=
    hsame.obj x
  rw [Nodes.objAt?_setBackward?, Nodes.objAt?_setBackward, hobj]
  split_ifs with hx
  · rw [hx]
    exact (allocated_self sl obj val level.val _).2.1
  · exact (allocated_old sl obj val level.val _ hx).2.1

/-- `skiplistInsert` keeps the objects of all nodes, and may add a node with the new one. -/
theorem objAt?_skiplistInsert (h : skiplistInsert compare valcmp sl obj val level = .ok sl') :
    (∀ x, sl'.nodes.objAt? x = sl.nodes.objAt? x) ∨
      ∀ x, sl'.nodes.objAt? x = if x = sl.nodes.next then some obj else sl.nodes.objAt? x := by
  obtain ⟨r, _, h⟩ := bind_eq_ok.1 h
  obtain ⟨n, _, h⟩ := bind_eq_ok.1 h
  cases n with
  | none => exact Or.inr fun x => objAt?_skiplistInsertNode h x
  | some n =>
      obtain ⟨node, _, h⟩ := bind_eq_ok.1 h
      obtain rfl := Except.ok.inj h
      exact Or.inl fun x => Nodes.objAt?_setVals _ _ _ _

end Insert

/-! ## Deleting -/

section Delete

variable {sl sl' : Skiplist K V} {compare : K → K → Exec Int} {valcmp : V → V → Int} {obj : K}
  {val : Option V} {n : Nat} {update : List (Nat × Nat)}

theorem readsLive_skiplistDeleteNode : ReadsLive (skiplistDeleteNode sl n update) := by
  refine (readsLive_forLevels (readsLive_unlinkLevel n) 0 _ _).bind fun ns _ => ?_
  refine Nodes.readsLive_node.bind fun nx _ => ?_
  refine Nodes.readsLive_levelAt.bind fun lx _ => ?_
  exact (readsLive_shrinkLevel _ _ _).bind fun _ _ => avoids_ok _

theorem readsLive_skiplistDelete (h : AsksLive sl.nodes fun k => compare k obj) :
    ReadsLive (skiplistDelete compare valcmp sl obj val) := by
  refine (readsLive_skiplistSearch (h.answer _)).bind fun r _ => ?_
  refine (readsLive_matchNext h r.1).bind fun n _ => ?_
  cases n with
  | none => exact avoids_ok _
  | some n =>
      refine Nodes.readsLive_node.bind fun x _ => ?_
      dsimp only
      split_ifs
      · exact readsLive_skiplistDeleteNode.bind fun _ _ => avoids_ok _
      · exact avoids_ok _

theorem objAt?_skiplistDeleteNode (h : skiplistDeleteNode sl n update = .ok sl') (x : Nat) :
    sl'.nodes.objAt? x = sl.nodes.objAt? x := by
  obtain ⟨ns, hunlink, h⟩ := bind_eq_ok.1 h
  obtain ⟨nx, _, h⟩ := bind_eq_ok.1 h
  obtain ⟨lx, _, h⟩ := bind_eq_ok.1 h
  obtain ⟨lv, _, h⟩ := bind_eq_ok.1 h
  obtain rfl := Except.ok.inj h
  rw [Nodes.objAt?_setBackward?]
  exact (sameNodes_forLevels (sameNodes_unlinkLevel n) 0 _ _ _ hunlink).obj x

/-- What `skiplistDelete` does to the objects: the node that is found goes when nothing is left in
it, and the others keep theirs. -/
theorem objAt?_skiplistDelete {found : Bool}
    (h : skiplistDelete compare valcmp sl obj val = .ok (sl', found)) :
    ∃ f, skiplistFind compare sl obj = .ok f ∧ ∀ x, sl'.nodes.objAt? x =
      if f = some x ∧ ∃ node, sl.nodes.cell x = some node ∧ remainingVals valcmp val node.vals = []
      then none else sl.nodes.objAt? x := by
  obtain ⟨r, hsearch, h⟩ := bind_eq_ok.1 h
  obtain ⟨f, hmatch, h⟩ := bind_eq_ok.1 h
  refine ⟨f, by rw [skiplistFind, hsearch]; exact hmatch, fun x => ?_⟩
  cases f with
  | none =>
      obtain ⟨rfl, _⟩ := Prod.mk.inj (Except.ok.inj h)
      simp
  | some n =>
      obtain ⟨node, hnode, h⟩ := bind_eq_ok.1 h
      have hcell : sl.nodes.cell n = some node := orFault_eq_ok.1 hnode
      dsimp only at h
      split_ifs at h with hnil
      · obtain ⟨sl₁, hrun, h⟩ := bind_eq_ok.1 h
        obtain ⟨rfl, _⟩ := Prod.mk.inj (Except.ok.inj h)
        by_cases hx : n = x
        · subst hx
          simp [Nodes.objAt?, hcell, hnil]
        · have hobs := (Nodes.observations_congr
            (Store.cell_free_of_ne sl₁.nodes fun heq : x = n => hx heq.symm)).2.2.1
          rw [if_neg (by simp [hx])]
          exact hobs.trans (objAt?_skiplistDeleteNode hrun x)
      · obtain ⟨rfl, _⟩ := Prod.mk.inj (Except.ok.inj h)
        rw [if_neg, Nodes.objAt?_setVals]
        rintro ⟨hx, node', hnode', hnil'⟩
        obtain rfl := Option.some.inj hx
        obtain rfl := Option.some.inj (hcell.symm.trans hnode')
        exact hnil hnil'

end Delete

end Secondary
