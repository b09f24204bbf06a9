import Secondary.Skiplist.State

/-!
# Insert — adding a node to a linked skiplist

The loops of `skiplistInsert` and `skiplistDeleteNode` work level by level: the step for level `i`
reads and writes the level-`i` pointers alone.  `LevelStep` states what one step does, and
`forLevels_spec` what the loop does.  With the `update` array of a search, linking a fresh node
behind `update[i]` then gives every node the pointers that its new position asks for.
-/

namespace Secondary

open Lib

variable {K V O : Type}

/-! ## Loops over levels -/

namespace Nodes

/-- The level-`i` pointers of all nodes. -/
def levels (ns : Nodes K V) (i : Nat) : Nat → Option SkiplistLevel :=
  fun y => ns.levelAt? y i

/-- Only levels may differ. -/
structure SameNodes (ns ms : Nodes K V) : Prop where
  height : ms.height = ns.height
  obj : ∀ y, ms.objAt? y = ns.objAt? y
  vals : ∀ y, ms.valsAt? y = ns.valsAt? y
  back : ∀ y, ms.backAt? y = ns.backAt? y
  next : ms.next = ns.next

theorem SameNodes.refl (ns : Nodes K V) : SameNodes ns ns :=
  ⟨rfl, fun _ => rfl, fun _ => rfl, fun _ => rfl, rfl⟩

theorem SameNodes.trans {ns ms ls : Nodes K V} (h : SameNodes ns ms) (h' : SameNodes ms ls) :
    SameNodes ns ls where
  height := h'.height.trans h.height
  obj y := (h'.obj y).trans (h.obj y)
  vals y := (h'.vals y).trans (h.vals y)
  back y := (h'.back y).trans (h.back y)
  next := h'.next.trans h.next

theorem sameNodes_updLevel (ns : Nodes K V) (x i : Nat) (f : SkiplistLevel → SkiplistLevel) :
    SameNodes ns (ns.updLevel x i f) where
  height := height_updLevel ns x i f
  obj y := objAt?_updLevel ns x y i f
  vals y := valsAt?_updLevel ns x y i f
  back y := backAt?_updLevel ns x y i f
  next := rfl

end Nodes

/-- What a loop body does at one level: where `pre` holds of the pointers of that level, `post`
gives the new ones, and nothing else changes. -/
def LevelStep (step : Nat → Nat × Nat → Nodes K V → Exec (Nodes K V))
    (pre : Nat × Nat → (Nat → Option SkiplistLevel) → Prop)
    (post : Nat × Nat → (Nat → Option SkiplistLevel) → Nat → Option SkiplistLevel) : Prop :=
  ∀ i u ns, pre u (ns.levels i) →
    ∃ ms, step i u ns = .ok ms ∧ Nodes.SameNodes ns ms ∧
      ∀ j, ms.levels j = if j = i then post u (ns.levels i) else ns.levels j

/-- The loop updates the levels of its range one by one, from the pointers they had before. -/
theorem forLevels_spec {step : Nat → Nat × Nat → Nodes K V → Exec (Nodes K V)}
    {pre : Nat × Nat → (Nat → Option SkiplistLevel) → Prop}
    {post : Nat × Nat → (Nat → Option SkiplistLevel) → Nat → Option SkiplistLevel}
    (hstep : LevelStep step pre post) :
    ∀ (us : List (Nat × Nat)) (i : Nat) (ns : Nodes K V),
      (∀ k u, us[k]? = some u → pre u (ns.levels (i + k))) →
        ∃ ms, forLevels step i us ns = .ok ms ∧ Nodes.SameNodes ns ms ∧
          (∀ j, (j < i ∨ i + us.length ≤ j) → ms.levels j = ns.levels j) ∧
          ∀ k u, us[k]? = some u → ms.levels (i + k) = post u (ns.levels (i + k)) := by
  intro us
  induction us with
  | nil =>
      intro i ns _
      exact ⟨ns, rfl, Nodes.SameNodes.refl ns, fun _ _ => rfl, by simp⟩
  | cons u us ih =>
      intro i ns hpre
      -- A step changes its own level alone, so the later steps find theirs as they were.
      obtain ⟨ns₁, hrun₁, hsame₁, hlev₁⟩ := hstep i u ns (by simpa using hpre 0 u rfl)
      have hother : ∀ j, j ≠ i → ns₁.levels j = ns.levels j := by
        intro j hj
        rw [hlev₁ j, if_neg hj]
      obtain ⟨ms, hrun, hsame, hout, hin⟩ := ih (i + 1) ns₁ (by
        intro k v hv
        rw [hother _ (by omega)]
        have := hpre (k + 1) v (by simpa using hv)
        rwa [Nat.add_assoc, Nat.add_comm 1 k])
      refine ⟨ms, ?_, hsame₁.trans hsame, ?_, ?_⟩
      · simp [forLevels, hrun₁, hrun]
      · intro j hj
        rw [List.length_cons] at hj
        have hne : j ≠ i := by omega
        rw [hout j (by omega), hother j hne]
      · intro k v hv
        cases k with
        | zero =>
            obtain rfl : u = v := by simpa using hv
            rw [hout (i + 0) (by omega), hlev₁ (i + 0), if_pos (by omega)]
            rfl
        | succ k =>
            have := hin k v (by simpa using hv)
            rw [hother _ (by omega)] at this
            rwa [Nat.add_assoc, Nat.add_comm 1 k] at this

theorem levels_updLevel (ns : Nodes K V) (x i : Nat) (f : SkiplistLevel → SkiplistLevel)
    (j : Nat) :
    (ns.updLevel x i f).levels j =
      if j = i then fun y => if y = x then (ns.levels i y).map f else ns.levels i y
      else ns.levels j := by
  by_cases hj : j = i
  · subst hj
    funext y
    simp [Nodes.levels, Nodes.levelAt?_updLevel]
  · funext y
    simp [Nodes.levels, Nodes.levelAt?_updLevel, hj]

/-- An update of one level of the node `x` that turns the pointers of the level into `L` leaves
the other levels as they are. -/
theorem levels_updLevel_of {ns : Nodes K V} {x i : Nat} {f : SkiplistLevel → SkiplistLevel}
    {L : Nat → Option SkiplistLevel} (hx : L x = (ns.levels i x).map f)
    (hother : ∀ y, y ≠ x → L y = ns.levels i y) (j : Nat) :
    (ns.updLevel x i f).levels j = if j = i then L else ns.levels j := by
  rw [levels_updLevel]
  by_cases hj : j = i
  · simp only [hj, if_true]
    funext y
    by_cases hyx : y = x
    · rw [if_pos hyx, hyx, hx]
    · rw [if_neg hyx, hother y hyx]
  · rw [if_neg hj, if_neg hj]

/-- `linkLevel` on the pointers of its level. -/
def linked (x rank0 : Nat) (u : Nat × Nat) (L : Nat → Option SkiplistLevel) :
    Nat → Option SkiplistLevel :=
  fun y =>
    if y = u.1 then some { forward := some x, span := rank0 - u.2 + 1 }
    else if y = x then (L u.1).map fun lu => { lu with span := lu.span - (rank0 - u.2) }
    else L y

theorem linkLevel_step (x rank0 : Nat) :
    LevelStep (K := K) (V := V) (linkLevel x rank0)
      (fun u L => u.1 ≠ x ∧ (L u.1).isSome ∧ (L x).isSome) (linked x rank0) := by
  rintro i u ns ⟨hux, hu, hx⟩
  obtain ⟨lu, hlu⟩ := Option.isSome_iff_exists.1 hu
  obtain ⟨lx, hlx⟩ := Option.isSome_iff_exists.1 hx
  let f : SkiplistLevel → SkiplistLevel := fun _ =>
    { forward := lu.forward, span := lu.span - (rank0 - u.2) }
  let g : SkiplistLevel → SkiplistLevel := fun _ =>
    { forward := some x, span := rank0 - u.2 + 1 }
  have hsame : Nodes.SameNodes ns ((ns.updLevel x i f).updLevel u.1 i g) :=
    (Nodes.sameNodes_updLevel ns x i f).trans (Nodes.sameNodes_updLevel _ u.1 i g)
  refine ⟨(ns.updLevel x i f).updLevel u.1 i g, ?_, hsame, ?_⟩
  · simp only [linkLevel, Nodes.levelAt_of_some hlu, Nodes.levelAt_of_some hlx, ok_bind, f, g]
  · intro j
    rw [levels_updLevel, levels_updLevel]
    by_cases hj : j = i
    · subst hj
      funext y
      by_cases hyu : y = u.1
      · subst hyu
        simp [linked, hux, hlu, g]
      · by_cases hyx : y = x
        · subst hyx
          simp [linked, hyu, hlu, hlx, f]
        · simp [linked, hyu, hyx]
    · simp [levels_updLevel, hj]

/-- `touchLevel` on the pointers of its level. -/
def touched (u : Nat × Nat) (L : Nat → Option SkiplistLevel) : Nat → Option SkiplistLevel :=
  fun y => if y = u.1 then (L y).map fun l => { l with span := l.span + 1 } else L y

theorem touchLevel_step :
    LevelStep (K := K) (V := V) touchLevel (fun u L => (L u.1).isSome) touched := by
  intro i u ns hu
  obtain ⟨lu, hlu⟩ := Option.isSome_iff_exists.1 hu
  let f : SkiplistLevel → SkiplistLevel := fun l => { l with span := l.span + 1 }
  refine ⟨ns.updLevel u.1 i f, ?_, Nodes.sameNodes_updLevel ns u.1 i f, ?_⟩
  · simp only [touchLevel, Nodes.levelAt_of_some hlu, ok_bind, f]
  · exact levels_updLevel_of (by simp [touched, f]) (fun y hyu => by simp [touched, hyu])

theorem sameNodes_raiseSpans (header length : Nat) :
    ∀ (n i : Nat) (ns : Nodes K V), Nodes.SameNodes ns (raiseSpans ns header length i n)
  | 0, _, ns => Nodes.SameNodes.refl ns
  | n + 1, i, ns =>
      (Nodes.sameNodes_updLevel ns header i _).trans (sameNodes_raiseSpans header length n (i + 1) _)

/-- Raising the level gives the new levels of the header the span of a link to the end. -/
theorem levels_raiseSpans (header length : Nat) :
    ∀ (n i : Nat) (ns : Nodes K V) (j : Nat),
      (raiseSpans ns header length i n).levels j =
        if i ≤ j ∧ j < i + n then
          fun y => if y = header then
            (ns.levels j y).map fun l => { l with span := length }
          else ns.levels j y
        else ns.levels j
  | 0, i, ns, j => by
      have hout : ¬ (i ≤ j ∧ j < i + 0) := by omega
      rw [if_neg hout]
      rfl
  | n + 1, i, ns, j => by
      rw [raiseSpans, levels_raiseSpans header length n (i + 1), levels_updLevel]
      by_cases hj : j = i
      · subst hj
        simp
      · by_cases hin : i ≤ j ∧ j < i + (n + 1)
        · have hin' : i + 1 ≤ j ∧ j < i + 1 + n := by omega
          simp only [hin, hin', hj, and_self, if_true, if_false]
        · have hout : ¬ (i + 1 ≤ j ∧ j < i + 1 + n) := by omega
          simp only [hin, hout, hj, if_false]

/-! ## The pointers after linking -/

theorem links_raiseSpans {sl : Skiplist K V} {as : List Nat} (h : Linked sl as) (n : Nat)
    (hn : sl.level + n ≤ skiplistMaxLevel) :
    Links (raiseSpans sl.nodes sl.header sl.length sl.level n) (sl.header :: as) (sl.level + n) := by
  have hht := (sameNodes_raiseSpans sl.header sl.length n sl.level sl.nodes).height
  intro pre c suf hsplit i hi hc
  rw [hht] at hc ⊢
  have hlev := congrFun (levels_raiseSpans sl.header sl.length n sl.level sl.nodes i) c
  simp only [Nodes.levels] at hlev
  by_cases hold : i < sl.level
  · have hout : ¬ (sl.level ≤ i ∧ i < sl.level + n) := by omega
    rw [hlev, if_neg hout]
    exact h.links pre c suf hsplit i hold hc
  · -- Only the header reaches a level that was not in use, and everything stands behind it.
    have hheader : c = sl.header := by
      have hmem : c ∈ sl.header :: as := by
        rw [hsplit]
        simp
      rcases List.mem_cons.1 hmem with rfl | hmem
      · rfl
      · have := h.height_le c hmem
        omega
    subst hheader
    obtain ⟨rfl, rfl⟩ : [] = pre ∧ as = suf := split_unique (by simpa using h.nodup) hsplit
    obtain ⟨l, hl, hf⟩ := h.above i (by omega) (by omega)
    have hin : sl.level ≤ i ∧ i < sl.level + n := by omega
    have hlow : ∀ a ∈ as, sl.nodes.height a ≤ i := by
      intro a ha
      have := h.height_le a ha
      omega
    rw [hlev, if_pos hin, if_pos rfl, hl, link_of_low hlow, ← h.length, ← hf]
    rfl

/-- On the levels that are new, the header is the last node that reaches them. -/
theorem updateOk_extend {sl : Skiplist K V} {as bs : List Nat} {update : List (Nat × Nat)}
    (h : Linked sl (as ++ bs)) (hupd : UpdateOk sl.nodes.height (sl.header :: as) sl.level update)
    (n : Nat) (hn : sl.level + n ≤ skiplistMaxLevel) :
    UpdateOk sl.nodes.height (sl.header :: as) (sl.level + n)
      (update ++ List.replicate n (sl.header, 0)) where
  length := by simp [hupd.length]
  last := by
    intro i u hu
    by_cases hi : i < sl.level
    · rw [List.getElem?_append_left (by rw [hupd.length]; exact hi)] at hu
      exact hupd.last hu
    · rw [List.getElem?_append_right (by rw [hupd.length]; omega)] at hu
      obtain ⟨hlt, hu⟩ := List.getElem?_eq_some_iff.1 hu
      have hlt' : i - sl.level < n := by simpa [hupd.length] using hlt
      obtain rfl : (sl.header, 0) = u := by simpa using hu
      refine ⟨[], as, rfl, ?_, ?_, rfl⟩
      · rw [h.header_height]
        omega
      · intro a ha
        have := h.height_le a (by simp [ha])
        omega

/-- A node other than the last one that reaches level `i` has that one behind it. -/
theorem LastTall.tall_after {ht : Nat → Nat} {i : Nat} {cells pre suf : List Nat} {u r c : Nat}
    (h : LastTall ht i cells u r) (hsplit : cells = pre ++ c :: suf) (hc : i < ht c)
    (hcu : c ≠ u) : ∃ b ∈ suf, i < ht b := by
  obtain ⟨pre', post, hcells, hu, hlow, _⟩ := h
  rcases append_eq_split (hsplit.symm.trans hcells) with ⟨as', hpre, _⟩ | ⟨bs', _, hcons⟩
  · -- `u` stands in front of `c`, so `c` is one of the low nodes behind it.
    rw [hpre] at hsplit
    have hpost : post = as' ++ c :: suf := by
      have := hsplit.symm.trans hcells
      simpa [hpre] using this.symm
    have := hlow c (by simp [hpost])
    omega
  · cases bs' with
    | nil =>
        obtain ⟨hcu', _⟩ := List.cons.inj (show c :: suf = u :: post by simpa using hcons)
        exact absurd hcu' hcu
    | cons b bs' =>
        obtain ⟨_, hsuf⟩ :=
          List.cons.inj (show c :: suf = b :: (bs' ++ u :: post) by simpa using hcons)
        exact ⟨u, by simp [hsuf], hu⟩

/-- Linking `x` behind `update[i]` on the levels it reaches, and counting it on the others. -/
theorem Links.insert {ns ms : Nodes K V} {as bs : List Nat} {x m : Nat}
    {update : List (Nat × Nat)} (hlinks : Links ns (as ++ bs) m) (hnodup : (as ++ bs).Nodup)
    (hx : x ∉ as ++ bs) (hupd : UpdateOk ns.height as m update) (hheight : ms.height = ns.height)
    (hlow : ∀ i u, update[i]? = some u → i < ns.height x →
      ms.levels i = linked x (as.length - 1) u (ns.levels i))
    (hhigh : ∀ i u, update[i]? = some u → ns.height x ≤ i →
      ms.levels i = touched u (ns.levels i)) :
    Links ms (as ++ x :: bs) m := by
  intro pre c suf hsplit i hi hc
  rw [hheight] at hc ⊢
  obtain ⟨u, hu⟩ : ∃ u, update[i]? = some u :=
    ⟨_, List.getElem?_eq_getElem (by rw [hupd.length]; exact hi)⟩
  have hlast := hupd.last hu
  obtain ⟨pre', post, has, htall, hpost, hrank⟩ := hlast
  have humem : u.1 ∈ as := by simp [has]
  have hux : u.1 ≠ x := by
    rintro rfl
    exact hx (by simp [humem])
  have hspan : as.length - 1 - u.2 = post.length := by
    rw [has, hrank]
    simp
  -- The link behind `u` before the change.
  have hbehind : ns.levels i u.1 = some (link ns.height i (post ++ bs)) := by
    refine hlinks pre' u.1 (post ++ bs) ?_ i hi htall
    simp [has]
  rw [link_append_low hpost bs] at hbehind
  -- The links of `u`, of `x` and of every other node after the change.
  have hnewu : ms.levels i u.1 = some (link ns.height i (post ++ x :: bs)) := by
    rw [link_append_low hpost]
    by_cases hix : i < ns.height x
    · simp [hlow i u hu hix, linked, hspan, link, hix, Nat.add_comm]
    · simp only [hhigh i u hu (by omega), touched, if_true, hbehind, link, hix, if_false]
      simp
      omega
  have hnewx : i < ns.height x → ms.levels i x = some (link ns.height i bs) := by
    intro hix
    simp [hlow i u hu hix, linked, Ne.symm hux, hbehind, hspan]
  have hother : ∀ y, y ≠ u.1 → y ≠ x → ms.levels i y = ns.levels i y := by
    intro y hyu hyx
    by_cases hix : i < ns.height x
    · simp [hlow i u hu hix, linked, hyu, hyx]
    · simp [hhigh i u hu (by omega), touched, hyu]
  show ms.levels i c = some (link ns.height i suf)
  rcases append_eq_split hsplit with ⟨as', hpre, rfl⟩ | ⟨bs', rfl, hcons⟩
  · -- `c` stands in front of the new node.
    have hcx : c ≠ x := by
      rintro rfl
      exact hx (by simp [hpre])
    by_cases hcu : c = u.1
    · subst hcu
      have hnd : (pre' ++ u.1 :: post).Nodup := by
        rw [← has]
        exact (List.nodup_append.1 hnodup).1
      obtain ⟨_, rfl⟩ := split_unique hnd (has.symm.trans hpre)
      exact hnewu
    · rw [hother c hcu hcx, link_append_of_tall ((hupd.last hu).tall_after hpre hc hcu) _ bs]
      exact hlinks pre c (as' ++ bs) (by simp [hpre]) i hi hc
  · cases bs' with
    | nil =>
        obtain ⟨rfl, rfl⟩ := List.cons.inj (show x :: bs = c :: suf by simpa using hcons)
        exact hnewx hc
    | cons b bs' =>
        obtain ⟨rfl, hbs⟩ :=
          List.cons.inj (show x :: bs = b :: (bs' ++ c :: suf) by simpa using hcons)
        have hcbs : c ∈ bs := by simp [hbs]
        have hcx : c ≠ x := by
          rintro rfl
          exact hx (by simp [hcbs])
        have hcu : c ≠ u.1 := by
          rintro rfl
          exact (List.nodup_append.1 hnodup).2.2 u.1 humem u.1 hcbs rfl
        rw [hother c hcu hcx]
        exact hlinks (as ++ bs') c suf (by simp [hbs]) i hi hc

/-! ## The new node -/

namespace Nodes

/-- What a store shows of the node just allocated. -/
theorem observe_alloc_self (ns : Nodes K V) (n : SkiplistNode K V) :
    height (ns.alloc n) ns.next = n.level.length ∧ objAt? (ns.alloc n) ns.next = n.obj ∧
      valsAt? (ns.alloc n) ns.next = some n.vals ∧
      backAt? (ns.alloc n) ns.next = some n.backward := by
  simp [height, objAt?, valsAt?, backAt?]

theorem levels_isSome_iff {ns : Nodes K V} {x i : Nat} :
    (ns.levels i x).isSome ↔ i < ns.height x := by
  rw [Option.isSome_iff_exists]
  exact exists_levelAt?_iff

end Nodes

/-- `ns'` is `ns` with one more node `x`; the old nodes hold what they held. -/
structure Inserted (ns ns' : Nodes K V) (x : Nat) (obj : K) (val : V) (level : Nat) : Prop where
  next : ns'.next = ns.next + 1
  obj : ns'.objAt? x = some obj
  vals : ns'.valsAt? x = some [val]
  height : ns'.height x = level
  old : ∀ c, c ≠ x → ns'.objAt? c = ns.objAt? c ∧ ns'.valsAt? c = ns.valsAt? c ∧
    ns'.height c = ns.height c

/-- The two loops that link the new node run, and leave the pointers that its position asks for. -/
theorem linkNode_spec {ns : Nodes K V} {as bs : List Nat} {x m level : Nat}
    {update : List (Nat × Nat)} (hlinks : Links ns (as ++ bs) m) (hnodup : (as ++ bs).Nodup)
    (hx : x ∉ as ++ bs) (hupd : UpdateOk ns.height as m update) (hht : ns.height x = level)
    (hlevel : level ≤ m) :
    ∃ ns₁ ns₂, forLevels (linkLevel x (as.length - 1)) 0 (update.take level) ns = .ok ns₁ ∧
      forLevels touchLevel level (update.drop level) ns₁ = .ok ns₂ ∧ Nodes.SameNodes ns ns₂ ∧
      (∀ j, m ≤ j → ns₂.levels j = ns.levels j) ∧ Links ns₂ (as ++ x :: bs) m := by
  have htake : (update.take level).length = level := by
    rw [List.length_take, hupd.length]
    omega
  -- First the levels of the node, then those that cross it.
  obtain ⟨ns₁, hrun₁, hsame₁, hout₁, hin₁⟩ :=
    forLevels_spec (linkLevel_step x (as.length - 1)) (update.take level) 0 ns (by
      intro k u hu
      have hk : k < level := by
        rw [← htake]
        exact (List.getElem?_eq_some_iff.1 hu).1
      have hlast := hupd.last (i := k) (u := u) (by rwa [List.getElem?_take_of_lt hk] at hu)
      refine ⟨?_, Nodes.levels_isSome_iff.2 ?_, Nodes.levels_isSome_iff.2 ?_⟩
      · rintro rfl
        exact hx (by simp [hlast.mem])
      · simpa using hlast.height
      · rw [hht]
        omega)
  obtain ⟨ns₂, hrun₂, hsame₂, hout₂, hin₂⟩ :=
    forLevels_spec touchLevel_step (update.drop level) level ns₁ (by
      intro k u hu
      have hlast := hupd.last (i := level + k) (u := u) (by simpa using hu)
      refine Nodes.levels_isSome_iff.2 ?_
      rw [hsame₁.height]
      exact hlast.height)
  have hsame : Nodes.SameNodes ns ns₂ := hsame₁.trans hsame₂
  refine ⟨ns₁, ns₂, hrun₁, hrun₂, hsame, ?_, hlinks.insert hnodup hx hupd hsame.height ?_ ?_⟩
  · intro j hj
    rw [hout₂ j (Or.inr (by simp [hupd.length]; omega)), hout₁ j (Or.inr (by omega))]
  · intro i u hu hi
    rw [hht] at hi
    rw [hout₂ i (Or.inl hi)]
    simpa using hin₁ i u (by rwa [List.getElem?_take_of_lt hi])
  · intro i u hu hi
    rw [hht] at hi
    have h := hin₂ (i - level) u (by simpa [Nat.add_sub_cancel' hi] using hu)
    rw [Nat.add_sub_cancel' hi] at h
    rw [h, hout₁ i (Or.inr (by omega))]

theorem Links.alloc {ns : Nodes K V} {cells : List Nat} {m : Nat} (h : Links ns cells m)
    (hcells : ∀ c ∈ cells, c ≠ ns.next) (n : SkiplistNode K V) :
    Links (ns.alloc n) cells m := by
  intro pre c suf hsplit i hi hc
  have hobs : ∀ b ∈ cells, Nodes.height (ns.alloc n) b = ns.height b ∧
      ∀ j, Nodes.levelAt? (ns.alloc n) b j = ns.levelAt? b j := by
    intro b hb
    have := Nodes.observations_congr (Store.cell_alloc_of_ne ns n (hcells b hb))
    exact ⟨this.1, this.2.1⟩
  obtain ⟨hhc, hlc⟩ := hobs c (by simp [hsplit])
  rw [hhc] at hc
  have hsuf : link (Nodes.height (ns.alloc n)) i suf = link ns.height i suf :=
    link_congr fun b hb => (hobs b (by simp [hsplit, hb])).1
  rw [hlc i, hsuf]
  exact h pre c suf hsplit i hi hc

/-- The backward pointers after `x` has been put between `as` and `bs`. -/
theorem Backs.insert {ns ms : Nodes K V} {as bs : List Nat} {x : Nat}
    (h : Backs ns none (as ++ bs)) (hx : ms.backAt? x = some as.getLast?)
    (hhead : ∀ f, bs.head? = some f → ms.backAt? f = some (some x))
    (hold : ∀ c ∈ as ++ bs, bs.head? ≠ some c → ms.backAt? c = ns.backAt? c)
    (hnodup : (as ++ bs).Nodup) : Backs ms none (as ++ x :: bs) := by
  obtain ⟨has, hbs⟩ := backs_append.1 h
  refine backs_append.2 ⟨has.congr ?_, by simpa using hx, ?_⟩
  · intro a ha
    refine (hold a (by simp [ha]) ?_).symm
    intro hhd
    exact (List.nodup_append.1 hnodup).2.2 a ha a (List.mem_of_mem_head? hhd) rfl
  · cases bs with
    | nil => trivial
    | cons b bs =>
        refine ⟨hhead b rfl, hbs.2.congr ?_⟩
        intro c hc
        refine (hold c (by simp [hc]) ?_).symm
        intro hhd
        obtain rfl : b = c := by simpa using hhd
        have := (List.nodup_append.1 hnodup).2.1
        simp [hc] at this

/-- The end of a search is the header or the last node that was passed. -/
theorem SearchOk.getLast? {sl : Skiplist K V} {as bs cs : List Nat} {y : Nat}
    {update : List (Nat × Nat)} (hs : SearchOk sl as bs y update) (h : Linked sl (as ++ cs)) :
    as.getLast? = if y = sl.header then none else some y := by
  obtain ⟨pre, hpre⟩ := hs.last
  cases pre with
  | nil =>
      obtain ⟨rfl, rfl⟩ := List.cons.inj (show sl.header :: as = y :: [] by simpa using hpre)
      simp
  | cons p pre =>
      obtain ⟨_, rfl⟩ := List.cons.inj (show sl.header :: as = p :: (pre ++ [y]) by simpa using hpre)
      have hy : y ≠ sl.header := by
        rintro rfl
        exact h.header_notMem (by simp)
      simp [hy]

/-- The store in which the new node has been allocated, before it is linked. -/
def allocated (sl : Skiplist K V) (obj : K) (val : V) (level n : Nat) : Nodes K V :=
  (raiseSpans sl.nodes sl.header sl.length sl.level n).alloc
    { obj := some obj
      vals := [val]
      backward := none
      level := List.replicate level { forward := none, span := 0 } }

theorem allocated_self (sl : Skiplist K V) (obj : K) (val : V) (level n : Nat) :
    let ns := allocated sl obj val level n
    ns.height sl.nodes.next = level ∧ ns.objAt? sl.nodes.next = some obj ∧
      ns.valsAt? sl.nodes.next = some [val] ∧ ns.backAt? sl.nodes.next = some none := by
  have hnext := (sameNodes_raiseSpans sl.header sl.length n sl.level sl.nodes).next
  have hobs := Nodes.observe_alloc_self (raiseSpans sl.nodes sl.header sl.length sl.level n)
    { obj := some obj
      vals := [val]
      backward := none
      level := List.replicate level { forward := none, span := 0 } }
  rw [hnext] at hobs
  simpa [allocated] using hobs

theorem allocated_old (sl : Skiplist K V) (obj : K) (val : V) (level n : Nat) {c : Nat}
    (hc : c ≠ sl.nodes.next) :
    let ns := allocated sl obj val level n
    ns.height c = sl.nodes.height c ∧ ns.objAt? c = sl.nodes.objAt? c ∧
      ns.valsAt? c = sl.nodes.valsAt? c ∧ ns.backAt? c = sl.nodes.backAt? c := by
  have hsame := sameNodes_raiseSpans sl.header sl.length n sl.level sl.nodes
  rw [← hsame.next] at hc
  obtain ⟨hht, _, hobj, hvals, hback⟩ :=
    Nodes.observations_congr (Store.cell_alloc_of_ne (raiseSpans sl.nodes sl.header sl.length
      sl.level n) { obj := some obj
                    vals := [val]
                    backward := none
                    level := List.replicate level { forward := none, span := 0 } } hc)
  refine ⟨hht.trans (by rw [hsame.height]), hobj.trans (hsame.obj c), hvals.trans (hsame.vals c),
    hback.trans (hsame.back c)⟩

theorem allocated_above (sl : Skiplist K V) (obj : K) (val : V) (level n : Nat) {c i : Nat}
    (hc : c ≠ sl.nodes.next) (hi : sl.level + n ≤ i) :
    (allocated sl obj val level n).levelAt? c i = sl.nodes.levelAt? c i := by
  have hsame := sameNodes_raiseSpans sl.header sl.length n sl.level sl.nodes
  rw [← hsame.next] at hc
  have hcell := Store.cell_alloc_of_ne (raiseSpans sl.nodes sl.header sl.length sl.level n)
    { obj := some obj
      vals := [val]
      backward := none
      level := List.replicate level { forward := none, span := 0 } } hc
  have hlev := levels_raiseSpans sl.header sl.length n sl.level sl.nodes i
  rw [if_neg (by omega)] at hlev
  exact ((Nodes.observations_congr hcell).2.1 i).trans (congrFun hlev c)

/-- Setting the backward pointers of `x` and of the node behind it enters `x` into the backward
chain. -/
theorem Backs.setBackward?_insert {ns ms : Nodes K V} {as bs : List Nat} {x : Nat}
    {b : Option Nat} (h : Backs ns none (as ++ bs)) (hx : ms.backAt? x = some b)
    (hold : ∀ c, c ≠ x → ms.backAt? c = ns.backAt? c) (hfresh : ∀ c ∈ as ++ bs, c ≠ x)
    (hpos : ∀ f ∈ bs, 1 ≤ ns.height f) (hnodup : (as ++ bs).Nodup) :
    Backs ((ms.setBackward x as.getLast?).setBackward? bs.head? (some x)) none (as ++ x :: bs) := by
  have hxhead : bs.head? ≠ some x := fun hhd =>
    hfresh x (List.mem_append_right as (List.mem_of_mem_head? hhd)) rfl
  refine h.insert ?_ ?_ ?_ hnodup
  · rw [Nodes.backAt?_setBackward?, if_neg hxhead, Nodes.backAt?_setBackward, if_pos rfl, hx]
    rfl
  · intro f hf
    have hfmem : f ∈ bs := List.mem_of_mem_head? hf
    have hfx : f ≠ x := hfresh f (List.mem_append_right as hfmem)
    obtain ⟨b, hb⟩ := Nodes.exists_backAt? (hpos f hfmem)
    rw [Nodes.backAt?_setBackward?, if_pos hf, Nodes.backAt?_setBackward, if_neg hfx,
      hold f hfx, hb]
    rfl
  · intro c hc hhd
    have hcx : c ≠ x := hfresh c hc
    rw [Nodes.backAt?_setBackward?, if_neg hhd, Nodes.backAt?_setBackward, if_neg hcx, hold c hcx]

/-- The run of `skiplistInsertNode`, up to what it does to the nodes. -/
theorem skiplistInsertNode_run {sl : Skiplist K V} {as bs : List Nat} {y n : Nat}
    {update : List (Nat × Nat)} (h : Linked sl (as ++ bs)) (hs : SearchOk sl as bs y update)
    (obj : K) (val : V) (level : Level) (hn : n = level.val - sl.level) :
    ∃ ns', skiplistInsertNode sl obj val level update = .ok
        { header := sl.header
          tail := if bs.head?.isSome then sl.tail else some sl.nodes.next
          length := sl.length + 1
          level := sl.level + n
          nodes := ns' } ∧
      Inserted sl.nodes ns' sl.nodes.next obj val level.val ∧
      Links ns' (sl.header :: (as ++ sl.nodes.next :: bs)) (sl.level + n) ∧
      (∀ i, sl.level + n ≤ i → ns'.levelAt? sl.header i = sl.nodes.levelAt? sl.header i) ∧
      Backs ns' none (as ++ sl.nodes.next :: bs) := by
  obtain ⟨hlevel_pos, hlevel_le⟩ := level.property
  have hm : sl.level + n ≤ skiplistMaxLevel := by
    have := h.level_le
    omega
  have hmax : max sl.level level.val = sl.level + n := by omega
  let x := sl.nodes.next
  let ns := allocated sl obj val level.val n
  have hxfresh : ∀ c ∈ sl.header :: (as ++ bs), c ≠ x :=
    fun c hc => Nat.ne_of_lt (h.lt_next hc)
  have hself := allocated_self sl obj val level.val n
  have hold := fun c hc => allocated_old sl obj val level.val n (c := c) hc
  have hraised := (sameNodes_raiseSpans sl.header sl.length n sl.level sl.nodes).next
  have hnsnext : ns.next = x + 1 := congrArg (· + 1) hraised
  have hlinks : Links ns ((sl.header :: as) ++ bs) (sl.level + n) := by
    refine (links_raiseSpans h n hm).alloc ?_ _
    rw [hraised]
    exact hxfresh
  -- The levels that the list has grown by are entered at the header.
  have hupd : UpdateOk ns.height (sl.header :: as) (sl.level + n)
      (update ++ List.replicate n (sl.header, 0)) := by
    refine (updateOk_extend h hs.updateOk n hm).congr ?_
    intro c hc
    refine (hold c (hxfresh c ?_)).1.symm
    rcases List.mem_cons.1 hc with rfl | hc
    · simp
    · simp [hc]
  have hxmem : x ∉ (sl.header :: as) ++ bs := fun hx => hxfresh x (by simpa using hx) rfl
  obtain ⟨ns₁, ns₂, hrun₁, hrun₂, hsame, habove, hlinks₂⟩ :=
    linkNode_spec hlinks (by simpa using h.nodup) hxmem hupd hself.1 (by omega)
  -- The node after the new one, and the backward pointers.
  have hlx : ns₂.levelAt? x 0 = some (link ns₂.height 0 bs) := by
    refine hlinks₂ (sl.header :: as) x bs rfl 0 (by omega) ?_
    rw [hsame.height, hself.1]
    omega
  have hfwd : (link ns₂.height 0 bs).forward = bs.head? := by
    refine link_zero fun b hb => ?_
    rw [hsame.height, (hold b (hxfresh b (by simp [hb]))).1]
    exact h.height_pos b (by simp [hb])
  let back : Option Nat := if y = sl.header then none else some y
  let ns₃ := (ns₂.setBackward x back).setBackward? bs.head? (some x)
  have hht : ns₃.height = ns.height := by simp [ns₃, hsame.height]
  refine ⟨ns₃, ?_, ⟨?_, ?_, ?_, by rw [hht, hself.1], ?_⟩, ?_, ?_, ?_⟩
  · have hu0 : (update ++ List.replicate n (sl.header, 0))[0]? = some (y, as.length) := by
      rw [List.getElem?_append_left (by rw [hs.updateOk.length]; exact h.level_pos)]
      exact hs.first
    have hlx' : (ns₂.setBackward x back).levelAt x 0 = .ok (link ns₂.height 0 bs) :=
      Nodes.levelAt_of_some (by simpa using hlx)
    have hns : ((raiseSpans sl.nodes sl.header sl.length sl.level n).alloc
        { obj := some obj
          vals := [val]
          backward := none
          level := List.replicate level.val { forward := none, span := 0 } }) = ns := rfl
    simp only [List.length_cons, Nat.add_sub_cancel] at hrun₁
    simp only [skiplistInsertNode, ← hn, hns, hraised, hu0, orFault_some, ok_bind]
    simp only [x] at hrun₁
    simp only [hrun₁, ok_bind, hrun₂]
    simp only [back, x] at hlx'
    simp only [hlx', ok_bind, hfwd, hmax]
    rfl
  · simp [ns₃, hsame.next, hnsnext, x]
  · simpa [ns₃, hsame.obj] using hself.2.1
  · simpa [ns₃, hsame.vals] using hself.2.2.1
  · intro c hc
    obtain ⟨hc₁, hc₂, hc₃, _⟩ := hold c hc
    refine ⟨?_, ?_, by rw [hht, hc₁]⟩
    · simpa [ns₃, hsame.obj] using hc₂
    · simpa [ns₃, hsame.vals] using hc₃
  · intro pre c suf hsplit i hi hc
    have hht₂ : ns₃.height = ns₂.height := by simp [ns₃]
    rw [hht₂] at hc ⊢
    simpa [ns₃] using hlinks₂ pre c suf (by simpa using hsplit) i hi hc
  · intro i hi
    have hkeep : ns₂.levelAt? sl.header i = ns.levelAt? sl.header i :=
      congrFun (habove i hi) sl.header
    have hns := allocated_above sl obj val level.val n (hxfresh sl.header (by simp)) hi
    rw [← hns, ← hkeep]
    simp [ns₃]
  · have hback : as.getLast? = back := hs.getLast? h
    simp only [ns₃, ← hback]
    refine h.back.setBackward?_insert ((hsame.back x).trans hself.2.2.2) ?_ ?_ ?_
      (List.nodup_cons.1 h.nodup).2
    · exact fun c hc => (hsame.back c).trans (hold c hc).2.2.2
    · exact fun c hc => hxfresh c (List.mem_cons_of_mem _ hc)
    · exact fun f hf => h.height_pos f (List.mem_append_right as hf)

/-- Adding a node where a search ended puts it at that place of the list. -/
theorem skiplistInsertNode_spec {sl : Skiplist K V} {as bs : List Nat} {y : Nat}
    {update : List (Nat × Nat)} (h : Linked sl (as ++ bs)) (hs : SearchOk sl as bs y update)
    (obj : K) (val : V) (level : Level) :
    ∃ sl', skiplistInsertNode sl obj val level update = .ok sl' ∧ sl'.header = sl.header ∧
      Inserted sl.nodes sl'.nodes sl.nodes.next obj val level.val ∧
      Linked sl' (as ++ sl.nodes.next :: bs) := by
  obtain ⟨hlevel_pos, hlevel_le⟩ := level.property
  obtain ⟨n, hn⟩ : ∃ n, n = level.val - sl.level := ⟨_, rfl⟩
  obtain ⟨ns', hrun, hins, hlinks, habove, hback⟩ := skiplistInsertNode_run h hs obj val level hn
  have hlevel := h.level_le
  have hxfresh : ∀ c ∈ sl.header :: (as ++ bs), c ≠ sl.nodes.next :=
    fun c hc => Nat.ne_of_lt (h.lt_next hc)
  have hht : ∀ c ∈ sl.header :: (as ++ bs), ns'.height c = sl.nodes.height c :=
    fun c hc => (hins.old c (hxfresh c hc)).2.2
  have hmem : ∀ c ∈ as ++ sl.nodes.next :: bs, c = sl.nodes.next ∨ c ∈ as ++ bs := by
    intro c hc
    simp at hc ⊢
    tauto
  refine ⟨_, hrun, rfl, hins, ?_⟩
  exact
    { nodup := by
        have hperm : (sl.header :: (as ++ sl.nodes.next :: bs)).Perm
            (sl.nodes.next :: sl.header :: (as ++ bs)) :=
          (List.perm_middle.cons sl.header).trans (List.Perm.swap _ _ _)
        exact hperm.nodup_iff.2
          (List.nodup_cons.2 ⟨fun hx => hxfresh sl.nodes.next hx rfl, h.nodup⟩)
      level_pos := Nat.le_trans h.level_pos (Nat.le_add_right _ _)
      level_le := by
        show sl.level + n ≤ skiplistMaxLevel
        omega
      header_height := (hht sl.header (by simp)).trans h.header_height
      height_pos := by
        intro c hc
        rcases hmem c hc with rfl | hc
        · exact hins.height ▸ hlevel_pos
        · rw [hht c (List.mem_cons_of_mem _ hc)]
          exact h.height_pos c hc
      height_le := by
        intro c hc
        show ns'.height c ≤ sl.level + n
        rcases hmem c hc with rfl | hc
        · rw [hins.height]
          omega
        · rw [hht c (List.mem_cons_of_mem _ hc)]
          exact Nat.le_trans (h.height_le c hc) (Nat.le_add_right _ _)
      links := hlinks
      above := by
        intro i hi himax
        have hi' : sl.level + n ≤ i := hi
        obtain ⟨l, hl, hf⟩ := h.above i (by omega) himax
        exact ⟨l, (habove i hi').trans hl, hf⟩
      top := by
        -- The highest node is the new one, or the one it was before.
        show sl.level + n = 1 ∨ ∃ a ∈ _, ns'.height a = sl.level + n
        by_cases hhigh : sl.level ≤ level.val
        · refine Or.inr ⟨sl.nodes.next, by simp, ?_⟩
          rw [hins.height]
          omega
        · rcases h.top with hone | ⟨a, ha, hatop⟩
          · omega
          · refine Or.inr ⟨a, by simp at ha ⊢; tauto, ?_⟩
            rw [hht a (List.mem_cons_of_mem _ ha), hatop]
            omega
      back := hback
      tail := by
        show (if bs.head?.isSome then sl.tail else some sl.nodes.next) = _
        cases bs with
        | nil => simp
        | cons b bs => simp [h.tail, List.getLast?_append, List.getLast?_cons]
      length := by
        show sl.length + 1 = (as ++ sl.nodes.next :: bs).length
        rw [h.length]
        simp
        omega }

/-! ## Inserting a value -/

/-- `sl->compare(k, obj) < 0` for the keys of the list. -/
theorem Compares.below {compare : K → O → Exec Int} {obj : O} {c : K → Int}
    {bs : List (Bucket K V)} (h : Compares compare obj c bs) :
    ∀ b ∈ bs, below compare obj b.key = .ok (decide (c b.key < 0)) := by
  intro b hb
  simp [Secondary.below, h b hb]

/-- The search for a key and the look at the node after it, where the list has a bucket of it. -/
theorem Rep.search_present {sl : Skiplist K V} {compare : K → O → Exec Int} {obj : O} {c : K → Int}
    {as cs : List (Bucket K V)} {b : Bucket K V} (h : Rep sl (as ++ b :: cs))
    (hc : Compares compare obj c (as ++ b :: cs)) (hbelow : ∀ a ∈ as, c a.key < 0)
    (hhit : c b.key = 0) (habove : ∀ d ∈ cs, 0 < c d.key) :
    ∃ y update, skiplistSearch sl (Secondary.below compare obj) = .ok (y, update) ∧
      SearchOk sl (as.map Bucket.tag) ((b :: cs).map Bucket.tag) y update ∧
      Secondary.matchNext sl.nodes compare obj y = .ok (some b.tag) := by
  have hstop : ∀ d ∈ b :: cs, decide (c d.key < 0) = false := by
    intro d hd
    rcases List.mem_cons.1 hd with rfl | hd
    · simp [hhit]
    · simpa using Int.le_of_lt (habove d hd)
  obtain ⟨y, update, hsearch, hs⟩ :=
    h.search (p := fun k => decide (c k < 0)) hc.below (fun a ha => by simpa using hbelow a ha)
      hstop
  refine ⟨y, update, hsearch, hs, ?_⟩
  rw [h.matchNext hc hs]
  simp [hhit]

/-- The same, where the list has none: the node after the search is above the key. -/
theorem Rep.search_absent {sl : Skiplist K V} {compare : K → O → Exec Int} {obj : O} {c : K → Int}
    {as cs : List (Bucket K V)} (h : Rep sl (as ++ cs)) (hc : Compares compare obj c (as ++ cs))
    (hbelow : ∀ a ∈ as, c a.key < 0) (habove : ∀ d ∈ cs, 0 < c d.key) :
    ∃ y update, skiplistSearch sl (Secondary.below compare obj) = .ok (y, update) ∧
      SearchOk sl (as.map Bucket.tag) (cs.map Bucket.tag) y update ∧
      Secondary.matchNext sl.nodes compare obj y = .ok none := by
  have hstop : ∀ d ∈ cs, decide (c d.key < 0) = false := by
    intro d hd
    simpa using Int.le_of_lt (habove d hd)
  obtain ⟨y, update, hsearch, hs⟩ :=
    h.search (p := fun k => decide (c k < 0)) hc.below (fun a ha => by simpa using hbelow a ha)
      hstop
  refine ⟨y, update, hsearch, hs, ?_⟩
  rw [h.matchNext hc hs]
  cases cs with
  | nil => rfl
  | cons d cs =>
      have hd : c d.key ≠ 0 := (Int.ne_of_lt (habove d (by simp))).symm
      simp [hd]

/-- The bucket that a new node makes. -/
def newBucket (sl : Skiplist K V) (obj : K) (val : V) : Bucket K V where
  tag := sl.nodes.next
  key := obj
  vals := [val]

/-- A new node where a search ended is a new bucket there. -/
theorem Rep.insertNode {sl : Skiplist K V} {as bs : List (Bucket K V)} {y : Nat}
    {update : List (Nat × Nat)} (h : Rep sl (as ++ bs))
    (hs : SearchOk sl (as.map Bucket.tag) (bs.map Bucket.tag) y update) (obj : K) (val : V)
    (level : Level) :
    ∃ sl', skiplistInsertNode sl obj val level update = .ok sl' ∧
      Rep sl' (as ++ newBucket sl obj val :: bs) := by
  have hlinked : Linked sl (as.map Bucket.tag ++ bs.map Bucket.tag) := by
    simpa using h.linked
  obtain ⟨sl', hrun, hheader, hins, hlinked'⟩ := skiplistInsertNode_spec hlinked hs obj val level
  -- The new node is none of the old ones, which keep what they have.
  have hfresh : ∀ c ∈ sl.header :: (as ++ bs).map Bucket.tag, c ≠ sl.nodes.next :=
    fun c hc => Nat.ne_of_lt (h.linked.lt_next hc)
  have hold : ∀ b ∈ as ++ bs, sl'.nodes.objAt? b.tag = some b.key ∧
      sl'.nodes.valsAt? b.tag = some b.vals := by
    intro b hb
    have hne := hfresh b.tag (List.mem_cons_of_mem _ (List.mem_map_of_mem hb))
    obtain ⟨hobj, hvals, _⟩ := hins.old b.tag hne
    exact ⟨hobj.trans (h.obj b hb), hvals.trans (h.vals b hb)⟩
  have hnew : ∀ b ∈ as ++ newBucket sl obj val :: bs,
      b = newBucket sl obj val ∨ b ∈ as ++ bs := by
    intro b hb
    simp at hb ⊢
    tauto
  refine ⟨sl', hrun, ?_, ?_, ?_, ?_, ?_⟩
  · simpa [newBucket] using hlinked'
  · rw [hheader, (hins.old sl.header (hfresh sl.header (by simp))).2.1]
    exact h.header_vals
  · intro b hb
    rcases hnew b hb with rfl | hb
    · exact hins.obj
    · exact (hold b hb).1
  · intro b hb
    rcases hnew b hb with rfl | hb
    · exact hins.vals
    · exact (hold b hb).2
  · intro x k hx
    by_cases hnext : x = sl.nodes.next
    · exact ⟨newBucket sl obj val, by simp, hnext.symm⟩
    · obtain ⟨b, hb, rfl⟩ := h.only x k ((hins.old x hnext).1.symm.trans hx)
      refine ⟨b, ?_, rfl⟩
      simp at hb ⊢
      tauto

/-- `skiplistInsert` is insertion into the list of buckets. -/
theorem Rep.insert {sl : Skiplist K V} {bs : List (Bucket K V)} {compare : K → K → Exec Int}
    {obj : K} {c : K → Int} (h : Rep sl bs) (hc : Compares compare obj c bs)
    (hpos : Bucket.Position c bs) (valcmp : V → V → Int) (val : V) (level : Level) :
    ∃ sl', skiplistInsert compare valcmp sl obj val level = .ok sl' ∧
      Rep sl' (Bucket.insert c (fun x y => decide (valcmp x y = 0)) (newBucket sl obj val) val
        bs) := by
  rcases hpos with ⟨as, b, cs, rfl, hbelow, hhit, habove⟩ | ⟨as, cs, rfl, hbelow, habove⟩
  · obtain ⟨y, update, hsearch, hs, hmatch⟩ := h.search_present hc hbelow hhit habove
    obtain ⟨n, hn, hvals⟩ := Nodes.cell_of_valsAt? (h.vals b (by simp))
    rw [Bucket.insert_append hbelow, Bucket.insert_cons_of_eq hhit]
    refine ⟨_, ?_, h.setVals (appendNew (fun x y => decide (valcmp x y = 0)) b.vals val)⟩
    simp [skiplistInsert, hsearch, hmatch, Nodes.node, hn, hvals, skiplistNodeAppendValue]
  · obtain ⟨y, update, hsearch, hs, hmatch⟩ := h.search_absent hc hbelow habove
    obtain ⟨sl', hrun, hrep⟩ := h.insertNode hs obj val level
    refine ⟨sl', ?_, ?_⟩
    · simp [skiplistInsert, hsearch, hmatch, hrun]
    · rw [Bucket.insert_append hbelow]
      cases cs with
      | nil => exact hrep
      | cons d cs =>
          rw [Bucket.insert_cons_of_gt (habove d (by simp))]
          exact hrep

end Secondary
