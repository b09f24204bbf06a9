import Mathlib.Data.List.Nodup
import Mathlib.Data.List.Range
import Mathlib.Data.List.Perm.Subperm
import Secondary.Skiplist.Basic

/-!
# Links — what the forward pointers of a skiplist say, and where a search ends

The nodes of a skiplist form one list in level-0 order, the header first.  `link ht i suf` is the
pointer a node must carry at level `i` when `suf` stands after it: to the first node of `suf` that
is higher than `i`, with the number of steps to it.  `Links` says that the nodes carry exactly
these, and a search that passes an initial segment of the list then ends, on every level, at the
last node of that segment that reaches the level (`LastTall`).
-/

namespace Secondary

open Lib

variable {K V : Type}

/-! ## Observations of the node store -/

namespace Nodes

def height (ns : Nodes K V) (x : Nat) : Nat :=
  (ns.cell x).elim 0 fun n => n.level.length

def objAt? (ns : Nodes K V) (x : Nat) : Option K :=
  (ns.cell x).bind SkiplistNode.obj

def valsAt? (ns : Nodes K V) (x : Nat) : Option (List V) :=
  (ns.cell x).map SkiplistNode.vals

def backAt? (ns : Nodes K V) (x : Nat) : Option (Option Nat) :=
  (ns.cell x).map SkiplistNode.backward

theorem levelAt_of_some {ns : Nodes K V} {x i : Nat} {l : SkiplistLevel}
    (h : ns.levelAt? x i = some l) : ns.levelAt x i = .ok l := by
  simp [levelAt, h]

theorem objAt_of_some {ns : Nodes K V} {x : Nat} {k : K} (h : ns.objAt? x = some k) :
    ns.objAt x = .ok k := by
  simp only [objAt?] at h
  simp [objAt, h]

theorem exists_levelAt?_iff {ns : Nodes K V} {x i : Nat} :
    (∃ l, ns.levelAt? x i = some l) ↔ i < ns.height x := by
  unfold levelAt? height
  cases ns.cell x with
  | none => simp
  | some n =>
      have : (∃ l, n.level[i]? = some l) ↔ i < n.level.length := by
        rw [← Option.isSome_iff_exists, isSome_getElem?]
      simpa using this

theorem lt_next_of_height {ns : Nodes K V} {x i : Nat} (h : i < ns.height x) : x < ns.next := by
  unfold height at h
  cases hx : ns.cell x with
  | none => simp [hx] at h
  | some n => exact Store.lt_next hx

theorem exists_backAt? {ns : Nodes K V} {x i : Nat} (h : i < ns.height x) :
    ∃ b, ns.backAt? x = some b := by
  unfold height at h
  cases hx : ns.cell x with
  | none => simp [hx] at h
  | some n => exact ⟨n.backward, by simp [backAt?, hx]⟩

theorem cell_of_valsAt? {ns : Nodes K V} {x : Nat} {vs : List V} (h : ns.valsAt? x = some vs) :
    ∃ n, ns.cell x = some n ∧ n.vals = vs := by
  simpa [valsAt?] using h

/-! ### After an update -/

/-- An observation that an in-place update of one node does not change. -/
theorem observe_modify {β : Type} (observe : Option (SkiplistNode K V) → β)
    (g : SkiplistNode K V → SkiplistNode K V) (hg : ∀ o, observe (o.map g) = observe o)
    (ns : Nodes K V) (x y : Nat) : observe ((ns.modify x g).cell y) = observe (ns.cell y) := by
  by_cases hy : y = x
  · subst hy
    rw [Store.cell_modify_self, hg]
  · rw [Store.cell_modify_of_ne ns g hy]

section UpdLevel

variable (ns : Nodes K V) (x y i j : Nat) (f : SkiplistLevel → SkiplistLevel)

theorem levelAt?_updLevel :
    (ns.updLevel x i f).levelAt? y j =
      if y = x ∧ j = i then (ns.levelAt? y j).map f else ns.levelAt? y j := by
  by_cases hy : y = x
  · subst hy
    have hcell : (ns.updLevel y i f).cell y =
        (ns.cell y).map fun n => { n with level := n.level.modify i f } :=
      Store.cell_modify_self ns y _
    unfold levelAt?
    rw [hcell]
    cases hc : ns.cell y with
    | none => simp
    | some n =>
        by_cases hj : j = i
        · subst hj
          simp
        · have hij : i ≠ j := fun h => hj h.symm
          simp [hj, hij]
  · have hcell : (ns.updLevel x i f).cell y = ns.cell y := Store.cell_modify_of_ne ns _ hy
    simp [levelAt?, hcell, hy]

@[simp] theorem height_updLevel : (ns.updLevel x i f).height = ns.height := by
  funext y
  exact observe_modify (fun o => o.elim 0 fun n => n.level.length) _
    (fun o => by cases o <;> simp) ns x y

@[simp] theorem objAt?_updLevel : (ns.updLevel x i f).objAt? y = ns.objAt? y :=
  observe_modify (fun o => o.bind SkiplistNode.obj) _ (fun o => by cases o <;> rfl) ns x y

@[simp] theorem valsAt?_updLevel : (ns.updLevel x i f).valsAt? y = ns.valsAt? y :=
  observe_modify (fun o => o.map SkiplistNode.vals) _ (fun o => by cases o <;> rfl) ns x y

@[simp] theorem backAt?_updLevel : (ns.updLevel x i f).backAt? y = ns.backAt? y :=
  observe_modify (fun o => o.map SkiplistNode.backward) _ (fun o => by cases o <;> rfl) ns x y

@[simp] theorem next_updLevel : (ns.updLevel x i f).next = ns.next := rfl

end UpdLevel

section SetBackward

variable (ns : Nodes K V) (x y j : Nat) (b : Option Nat)

@[simp] theorem levelAt?_setBackward : (ns.setBackward x b).levelAt? y j = ns.levelAt? y j :=
  observe_modify (fun o => o.bind fun n => n.level[j]?) _ (fun o => by cases o <;> rfl) ns x y

@[simp] theorem height_setBackward : (ns.setBackward x b).height = ns.height := by
  funext y
  exact observe_modify (fun o => o.elim 0 fun n => n.level.length) _
    (fun o => by cases o <;> rfl) ns x y

@[simp] theorem objAt?_setBackward : (ns.setBackward x b).objAt? y = ns.objAt? y :=
  observe_modify (fun o => o.bind SkiplistNode.obj) _ (fun o => by cases o <;> rfl) ns x y

@[simp] theorem valsAt?_setBackward : (ns.setBackward x b).valsAt? y = ns.valsAt? y :=
  observe_modify (fun o => o.map SkiplistNode.vals) _ (fun o => by cases o <;> rfl) ns x y

theorem backAt?_setBackward :
    (ns.setBackward x b).backAt? y =
      if y = x then (ns.backAt? y).map fun _ => b else ns.backAt? y := by
  by_cases hy : y = x
  · subst hy
    have hcell : (ns.setBackward y b).cell y = (ns.cell y).map fun n => { n with backward := b } :=
      Store.cell_modify_self ns y _
    simp [backAt?, hcell, Function.comp_def]
  · have hcell : (ns.setBackward x b).cell y = ns.cell y := Store.cell_modify_of_ne ns _ hy
    simp [backAt?, hcell, hy]

@[simp] theorem next_setBackward : (ns.setBackward x b).next = ns.next := rfl

variable (f : Option Nat)

@[simp] theorem levelAt?_setBackward? : (ns.setBackward? f b).levelAt? y j = ns.levelAt? y j := by
  cases f <;> simp [setBackward?]

@[simp] theorem height_setBackward? : (ns.setBackward? f b).height = ns.height := by
  cases f <;> simp [setBackward?]

@[simp] theorem objAt?_setBackward? : (ns.setBackward? f b).objAt? y = ns.objAt? y := by
  cases f <;> simp [setBackward?]

@[simp] theorem valsAt?_setBackward? : (ns.setBackward? f b).valsAt? y = ns.valsAt? y := by
  cases f <;> simp [setBackward?]

theorem backAt?_setBackward? :
    (ns.setBackward? f b).backAt? y =
      if f = some y then (ns.backAt? y).map fun _ => b else ns.backAt? y := by
  cases f with
  | none => simp [setBackward?]
  | some x => simp [setBackward?, backAt?_setBackward, eq_comm]

@[simp] theorem next_setBackward? : (ns.setBackward? f b).next = ns.next := by
  cases f <;> rfl

end SetBackward

section SetVals

variable (ns : Nodes K V) (x y j : Nat) (vs : List V)

@[simp] theorem levelAt?_setVals : (ns.setVals x vs).levelAt? y j = ns.levelAt? y j :=
  observe_modify (fun o => o.bind fun n => n.level[j]?) _ (fun o => by cases o <;> rfl) ns x y

@[simp] theorem height_setVals : (ns.setVals x vs).height = ns.height := by
  funext y
  exact observe_modify (fun o => o.elim 0 fun n => n.level.length) _
    (fun o => by cases o <;> rfl) ns x y

@[simp] theorem objAt?_setVals : (ns.setVals x vs).objAt? y = ns.objAt? y :=
  observe_modify (fun o => o.bind SkiplistNode.obj) _ (fun o => by cases o <;> rfl) ns x y

@[simp] theorem backAt?_setVals : (ns.setVals x vs).backAt? y = ns.backAt? y :=
  observe_modify (fun o => o.map SkiplistNode.backward) _ (fun o => by cases o <;> rfl) ns x y

theorem valsAt?_setVals :
    (ns.setVals x vs).valsAt? y =
      if y = x then (ns.valsAt? y).map fun _ => vs else ns.valsAt? y := by
  by_cases hy : y = x
  · subst hy
    have hcell : (ns.setVals y vs).cell y = (ns.cell y).map fun n => { n with vals := vs } :=
      Store.cell_modify_self ns y _
    simp [valsAt?, hcell, Function.comp_def]
  · have hcell : (ns.setVals x vs).cell y = ns.cell y := Store.cell_modify_of_ne ns _ hy
    simp [valsAt?, hcell, hy]

@[simp] theorem next_setVals : (ns.setVals x vs).next = ns.next := rfl

end SetVals

/-- The observations depend on the cell alone. -/
theorem observations_congr {ns ms : Nodes K V} {x : Nat} (h : ns.cell x = ms.cell x) :
    ns.height x = ms.height x ∧ (∀ i, ns.levelAt? x i = ms.levelAt? x i) ∧
      ns.objAt? x = ms.objAt? x ∧ ns.valsAt? x = ms.valsAt? x ∧ ns.backAt? x = ms.backAt? x := by
  simp [height, levelAt?, objAt?, valsAt?, backAt?, h]

end Nodes

/-! ## The pointers a node must carry -/

/-- The level-`i` pointer of a node in front of `suf`: past the lower nodes to the first one that
is higher than `i`, or to nothing, with the number of steps crossed. -/
def link (ht : Nat → Nat) (i : Nat) : List Nat → SkiplistLevel
  | [] => { forward := none, span := 0 }
  | a :: as =>
      if i < ht a then
        { forward := some a, span := 1 }
      else
        { forward := (link ht i as).forward, span := (link ht i as).span + 1 }

section Link

variable {ht ht' : Nat → Nat} {i : Nat}

theorem link_append_low {post : List Nat} (hlow : ∀ b ∈ post, ht b ≤ i) (suf : List Nat) :
    link ht i (post ++ suf) =
      { forward := (link ht i suf).forward, span := (link ht i suf).span + post.length } := by
  induction post with
  | nil => simp
  | cons b post ih =>
      have hb : ¬ i < ht b := by
        have := hlow b (by simp)
        omega
      have hrec := ih (fun x hx => hlow x (by simp [hx]))
      simp only [List.cons_append, link, hb, if_false, hrec, List.length_cons]
      simp only [SkiplistLevel.mk.injEq, true_and]
      omega

/-- A node higher than `i` hides what stands after it. -/
theorem link_append_of_tall {post : List Nat} (htall : ∃ b ∈ post, i < ht b)
    (suf suf' : List Nat) : link ht i (post ++ suf) = link ht i (post ++ suf') := by
  induction post with
  | nil => simp at htall
  | cons b post ih =>
      by_cases hb : i < ht b
      · simp [link, hb]
      · have hrest : ∃ x ∈ post, i < ht x := by
          rcases htall with ⟨x, hx, hix⟩
          rcases List.mem_cons.1 hx with rfl | hx
          · exact absurd hix hb
          · exact ⟨x, hx, hix⟩
        simp [link, hb, ih hrest]

theorem link_congr {as : List Nat} (h : ∀ a ∈ as, ht a = ht' a) : link ht i as = link ht' i as := by
  induction as with
  | nil => rfl
  | cons a as ih =>
      have ha : ht a = ht' a := h a (by simp)
      simp [link, ha, ih (fun x hx => h x (by simp [hx]))]

theorem link_forward_mem {as : List Nat} {f : Nat} (h : (link ht i as).forward = some f) :
    f ∈ as ∧ i < ht f := by
  induction as with
  | nil => simp [link] at h
  | cons a as ih =>
      by_cases ha : i < ht a
      · have hf : a = f := by simpa [link, ha] using h
        subst hf
        exact ⟨by simp, ha⟩
      · have hf : (link ht i as).forward = some f := by simpa [link, ha] using h
        rcases ih hf with ⟨hmem, hif⟩
        exact ⟨by simp [hmem], hif⟩

theorem link_forward_eq_none_iff {as : List Nat} :
    (link ht i as).forward = none ↔ ∀ a ∈ as, ht a ≤ i := by
  induction as with
  | nil => simp [link]
  | cons a as ih =>
      by_cases ha : i < ht a
      · simp only [link, ha, if_true]
        simp
        omega
      · simp only [link, ha, if_false, ih]
        simp
        omega

/-- Where no node is higher than `i`, the span counts them all. -/
theorem link_of_low {as : List Nat} (hlow : ∀ a ∈ as, ht a ≤ i) :
    link ht i as = { forward := none, span := as.length } := by
  have h := link_append_low hlow []
  simpa [link] using h

end Link

/-- On the levels below `m`, every node of `cells` carries the pointer its position asks for. -/
def Links (ns : Nodes K V) (cells : List Nat) (m : Nat) : Prop :=
  ∀ pre c suf, cells = pre ++ c :: suf → ∀ i, i < m → i < ns.height c →
    ns.levelAt? c i = some (link ns.height i suf)

/-- `u`, at rank `r`, is the last node of `cells` that is higher than `i`. -/
def LastTall (ht : Nat → Nat) (i : Nat) (cells : List Nat) (u r : Nat) : Prop :=
  ∃ pre post, cells = pre ++ u :: post ∧ i < ht u ∧ (∀ b ∈ post, ht b ≤ i) ∧ r = pre.length

theorem LastTall.mem {ht : Nat → Nat} {i : Nat} {cells : List Nat} {u r : Nat}
    (h : LastTall ht i cells u r) : u ∈ cells := by
  rcases h with ⟨pre, post, rfl, _⟩
  simp

theorem LastTall.height {ht : Nat → Nat} {i : Nat} {cells : List Nat} {u r : Nat}
    (h : LastTall ht i cells u r) : i < ht u := by
  rcases h with ⟨_, _, _, hu, _⟩
  exact hu

/-- `update` holds, for each level below `n`, the last node of `cells` that reaches it. -/
structure UpdateOk (ht : Nat → Nat) (cells : List Nat) (n : Nat) (update : List (Nat × Nat)) :
    Prop where
  length : update.length = n
  last : ∀ {i u}, update[i]? = some u → LastTall ht i cells u.1 u.2

theorem UpdateOk.congr {ht ht' : Nat → Nat} {cells : List Nat} {n : Nat}
    {update : List (Nat × Nat)} (h : UpdateOk ht cells n update) (heq : ∀ c ∈ cells, ht c = ht' c) :
    UpdateOk ht' cells n update where
  length := h.length
  last := by
    intro i u hu
    rcases h.last hu with ⟨pre, post, rfl, hiu, hlow, hr⟩
    refine ⟨pre, post, rfl, ?_, ?_, hr⟩
    · rw [← heq u.1 (by simp)]
      exact hiu
    · intro b hb
      rw [← heq b (by simp [hb])]
      exact hlow b hb

/-! ## Where a search ends -/

/-- `pass` steps over the nodes of `as` and stops in front of those of `bs`. -/
structure Splits (ns : Nodes K V) (pass : K → Exec Bool) (as bs : List Nat) : Prop where
  passed : ∀ a ∈ as, ∃ k, ns.objAt? a = some k ∧ pass k = .ok true
  stop : ∀ b ∈ bs, ∃ k, ns.objAt? b = some k ∧ pass k = .ok false

/-- The first node of a list that reaches level `i`. -/
theorem exists_first_tall {height : Nat → Nat} {i : Nat} {rest : List Nat}
    (h : ∃ b ∈ rest, i < height b) :
    ∃ b₀ rest' low, rest = low ++ b₀ :: rest' ∧ (∀ b ∈ low, height b ≤ i) ∧ i < height b₀ := by
  have hsome : (rest.find? fun b => decide (i < height b)).isSome := by
    simpa only [List.find?_isSome, decide_eq_true_eq] using h
  obtain ⟨b₀, hfind⟩ := Option.isSome_iff_exists.1 hsome
  obtain ⟨htop, low, rest', hsplit, hlow⟩ := List.find?_eq_some_iff_append.1 hfind
  exact ⟨b₀, rest', low, hsplit, by simpa using hlow, by simpa using htop⟩

theorem walkLevel_spec {ns : Nodes K V} {pass : K → Exec Bool} {m i : Nat} {bs : List Nat}
    (him : i < m) :
    ∀ (rest pre : List Nat) (x fuel : Nat), Links ns (pre ++ x :: rest ++ bs) m →
      Splits ns pass rest bs → i < ns.height x → rest.length < fuel →
        ∃ u r, walkLevel ns pass i fuel x pre.length = .ok (u, r) ∧
          LastTall ns.height i (pre ++ x :: rest) u r := by
  intro rest
  -- A step of the walk skips the nodes that do not reach level `i`, so `rest` gets shorter.
  induction hn : rest.length using Nat.strong_induction_on generalizing rest with
  | _ n ih =>
    intro pre x fuel hlinks hsplits hx hfuel
    cases fuel with
    | zero => omega
    | succ fuel =>
        have hl : ns.levelAt? x i = some (link ns.height i (rest ++ bs)) :=
          hlinks pre x (rest ++ bs) (by simp) i him hx
        have hlx := Nodes.levelAt_of_some hl
        by_cases htall : ∃ b ∈ rest, i < ns.height b
        · -- The next node of this level is in `rest`: the walk steps onto it.
          obtain ⟨b₀, rest', low, hsplit, hlow, htop⟩ := exists_first_tall htall
          subst hsplit
          have hlink : link ns.height i (low ++ b₀ :: rest' ++ bs) =
              { forward := some b₀, span := low.length + 1 } := by
            rw [List.append_assoc, link_append_low hlow]
            simp [link, htop, Nat.add_comm]
          rw [hlink] at hlx
          obtain ⟨k, hk, hpass⟩ := hsplits.passed b₀ (by simp)
          have hkx := Nodes.objAt_of_some hk
          have hlen : rest'.length < n := by
            rw [← hn]
            simp
            omega
          have hlinks' : Links ns ((pre ++ x :: low) ++ b₀ :: rest' ++ bs) m := by
            simpa using hlinks
          have hsplits' : Splits ns pass rest' bs :=
            { passed := fun a ha => hsplits.passed a (by simp [ha])
              stop := hsplits.stop }
          have hfuel' : rest'.length < fuel := by
            have : (low ++ b₀ :: rest').length = low.length + 1 + rest'.length := by
              simp
              omega
            omega
          obtain ⟨u, r, hwalk, hlast⟩ :=
            ih rest'.length hlen rest' rfl (pre ++ x :: low) b₀ fuel hlinks' hsplits' htop hfuel'
          refine ⟨u, r, ?_, by simpa using hlast⟩
          -- The span of the link is what the rank grows by.
          have hrank : pre.length + (low.length + 1) = (pre ++ x :: low).length := by
            simp
          simp only [walkLevel, hlx, ok_bind, hkx, hpass, if_true, hrank]
          exact hwalk
        · -- No node of `rest` reaches level `i`: the walk stops at `x`.
          have hlow : ∀ b ∈ rest, ns.height b ≤ i := by
            intro b hb
            by_contra hib
            exact htall ⟨b, hb, by omega⟩
          refine ⟨x, pre.length, ?_, pre, rest, rfl, hx, hlow, rfl⟩
          rw [link_append_low hlow bs] at hlx
          cases hf : (link ns.height i bs).forward with
          | none => simp [walkLevel, hlx, hf]
          | some f =>
              obtain ⟨hmem, _⟩ := link_forward_mem hf
              obtain ⟨k, hk, hpass⟩ := hsplits.stop f hmem
              simp [walkLevel, hlx, hf, Nodes.objAt_of_some hk, hpass]

theorem descend_spec {ns : Nodes K V} {pass : K → Exec Bool} {m : Nat} {cells bs : List Nat}
    (hlinks : Links ns (cells ++ bs) m) (hover : Splits ns pass cells.tail bs)
    (hfuel : cells.length ≤ ns.next) :
    ∀ (n : Nat), n ≤ m → ∀ (pre : List Nat) (x : Nat) (rest : List Nat), cells = pre ++ x :: rest →
      n ≤ ns.height x →
        ∃ y update, descend ns pass n x pre.length = .ok (y, update) ∧
          UpdateOk ns.height cells n update ∧
          (n = 0 → y = x) ∧ (0 < n → ∃ r, update[0]? = some (y, r)) := by
  intro n
  -- From the top level down: the walk of each level starts where the one above has ended.
  induction n with
  | zero =>
      intro _ pre x rest _ _
      refine ⟨x, [], rfl, ⟨rfl, by simp⟩, fun _ => rfl, by simp⟩
  | succ n ih =>
      intro hnm pre x rest hcells hx
      have hrest : Splits ns pass rest bs :=
        { passed := by
            intro a ha
            refine hover.passed a ?_
            rw [hcells]
            cases pre with
            | nil => exact ha
            | cons p pre => simp [ha]
          stop := hover.stop }
      have hlen : rest.length < ns.next := by
        have : cells.length = pre.length + 1 + rest.length := by
          rw [hcells]
          simp
          omega
        omega
      obtain ⟨u, r, hwalk, hlast⟩ :=
        walkLevel_spec (m := m) (i := n) (by omega) rest pre x ns.next
          (by rw [← hcells]; exact hlinks) hrest (by omega) hlen
      rw [← hcells] at hlast
      obtain ⟨pre', post, hcells', hu, hlow, hr⟩ := hlast
      obtain ⟨y, update, hdesc, hupd, hzero, hpos⟩ :=
        ih (by omega) pre' u post hcells' (by omega)
      rw [← hr] at hdesc
      refine ⟨y, update ++ [(u, r)], ?_, ⟨?_, ?_⟩, by simp, ?_⟩
      · simp [descend, hwalk, hdesc]
      · simp [hupd.length]
      · intro i v hv
        by_cases hi : i < n
        · have hvu : update[i]? = some v := by
            rwa [List.getElem?_append_left (by rw [hupd.length]; exact hi)] at hv
          exact hupd.last hvu
        · -- The entry of level `n` is the one that this walk adds.
          rw [List.getElem?_append_right (by rw [hupd.length]; omega), hupd.length] at hv
          have hin : i = n := by
            have : i - n < [(u, r)].length := (List.getElem?_eq_some_iff.1 hv).1
            simp at this
            omega
          subst hin
          have huv : (u, r) = v := by simpa using hv
          subst huv
          exact ⟨pre', post, hcells', hu, hlow, hr⟩
      · intro _
        cases n with
        | zero =>
            have hnil : update = [] := List.length_eq_zero_iff.1 hupd.length
            have hy : y = u := hzero rfl
            exact ⟨r, by simp [hnil, hy]⟩
        | succ n =>
            obtain ⟨r₀, hr₀⟩ := hpos (by omega)
            refine ⟨r₀, ?_⟩
            rw [List.getElem?_append_left (by rw [hupd.length]; omega)]
            exact hr₀

end Secondary
