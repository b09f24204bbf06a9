import Secondary.Skiplist.Insert

/-!
# Delete — taking a node or a value out of a linked skiplist

`skiplistDeleteNode` joins the links around the node on each level, in the loop form of
`forLevels`, and then lowers the level of the list while its top level is empty.  On the buckets,
`skiplistDelete` is deletion.
-/

namespace Secondary

open Lib

variable {K V O : Type}

/-! ## The pointers after unlinking -/

/-- `unlinkLevel` on the pointers of its level. -/
def unlinked (x : Nat) (u : Nat × Nat) (L : Nat → Option SkiplistLevel) :
    Nat → Option SkiplistLevel :=
  fun y =>
    if y = u.1 then
      (L y).bind fun lu =>
        if lu.forward = some x then
          (L x).map fun lx => { forward := lx.forward, span := lu.span + lx.span - 1 }
        else
          some { lu with span := lu.span - 1 }
    else L y

theorem unlinkLevel_step (x : Nat) :
    LevelStep (K := K) (V := V) (unlinkLevel x)
      (fun u L => ∃ lu, L u.1 = some lu ∧ (lu.forward = some x → (L x).isSome)) (unlinked x) := by
  rintro i u ns ⟨lu, hlu, hx⟩
  by_cases hf : lu.forward = some x
  -- the pointer of `u` jumps over `x` and takes its span, else `x` lies inside the span of `u`
  · obtain ⟨lx, hlx⟩ := Option.isSome_iff_exists.1 (hx hf)
    let f : SkiplistLevel → SkiplistLevel := fun _ =>
      { forward := lx.forward, span := lu.span + lx.span - 1 }
    refine ⟨ns.updLevel u.1 i f, ?_, Nodes.sameNodes_updLevel ns u.1 i f, ?_⟩
    · simp only [unlinkLevel, Nodes.levelAt_of_some hlu, Nodes.levelAt_of_some hlx, ok_bind, hf,
        if_true, f]
    · exact levels_updLevel_of (by simp [unlinked, hlu, hf, hlx, f])
        (fun y hyu => by simp [unlinked, hyu])
  · let f : SkiplistLevel → SkiplistLevel := fun l => { l with span := l.span - 1 }
    refine ⟨ns.updLevel u.1 i f, ?_, Nodes.sameNodes_updLevel ns u.1 i f, ?_⟩
    · simp only [unlinkLevel, Nodes.levelAt_of_some hlu, ok_bind, hf, if_false, f]
    · exact levels_updLevel_of (by simp [unlinked, hlu, hf, f])
        (fun y hyu => by simp [unlinked, hyu])

/-- The link behind `u` when `x` stands between the nodes of `as` and those of `bs`. -/
theorem link_across {ht : Nat → Nat} {i x : Nat} {post : List Nat} (hlow : ∀ b ∈ post, ht b ≤ i)
    (bs : List Nat) :
    link ht i (post ++ x :: bs) =
      if i < ht x then { forward := some x, span := post.length + 1 }
      else { forward := (link ht i bs).forward, span := (link ht i bs).span + post.length + 1 } := by
  rw [link_append_low hlow]
  by_cases hx : i < ht x
  · simp [link, hx, Nat.add_comm]
  · simp [link, hx]
    omega

/-- Unlinking `x` behind `update[i]` on every level. -/
theorem Links.delete {ns ms : Nodes K V} {as bs : List Nat} {x m : Nat}
    {update : List (Nat × Nat)} (hlinks : Links ns (as ++ x :: bs) m)
    (hnodup : (as ++ x :: bs).Nodup) (hupd : UpdateOk ns.height as m update)
    (hheight : ms.height = ns.height)
    (hlev : ∀ i u, update[i]? = some u → ms.levels i = unlinked x u (ns.levels i)) :
    Links ms (as ++ bs) m := by
  intro pre c suf hsplit i hi hc
  rw [hheight] at hc ⊢
  obtain ⟨u, hu⟩ : ∃ u, update[i]? = some u :=
    ⟨_, List.getElem?_eq_getElem (by rw [hupd.length]; exact hi)⟩
  obtain ⟨pre', post, has, htall, hpost, _⟩ := hupd.last hu
  have humem : u.1 ∈ as := by simp [has]
  have hbehind : ns.levels i u.1 = some (link ns.height i (post ++ x :: bs)) := by
    refine hlinks pre' u.1 (post ++ x :: bs) ?_ i hi htall
    simp [has]
  rw [link_across hpost] at hbehind
  have hxbs : x ∉ bs := by
    have := (List.nodup_append.1 hnodup).2.1
    exact (List.nodup_cons.1 this).1
  -- The link of `u` after the change: it skips `x`, or it gets one shorter.
  have hnewu : ms.levels i u.1 = some (link ns.height i (post ++ bs)) := by
    rw [hlev i u hu, link_append_low hpost]
    by_cases hix : i < ns.height x
    · have hlx : ns.levels i x = some (link ns.height i bs) :=
        hlinks as x bs rfl i hi hix
      rw [if_pos hix] at hbehind
      simp [unlinked, hbehind, hlx]
      omega
    · have hne : (link ns.height i bs).forward ≠ some x := by
        intro hf
        exact hxbs (link_forward_mem hf).1
      rw [if_neg hix] at hbehind
      simp [unlinked, hbehind, hne]
  have hother : ∀ y, y ≠ u.1 → ms.levels i y = ns.levels i y := by
    intro y hyu
    simp [hlev i u hu, unlinked, hyu]
  show ms.levels i c = some (link ns.height i suf)
  rcases append_eq_split hsplit with ⟨as', hpre, rfl⟩ | ⟨bs', rfl, hbs⟩
  · by_cases hcu : c = u.1
    · subst hcu
      have hnd : (pre' ++ u.1 :: post).Nodup := by
        rw [← has]
        exact (List.nodup_append.1 hnodup).1
      obtain ⟨_, rfl⟩ := split_unique hnd (has.symm.trans hpre)
      exact hnewu
    · rw [hother c hcu,
        link_append_of_tall ((hupd.last hu).tall_after hpre hc hcu) bs (x :: bs)]
      exact hlinks pre c (as' ++ x :: bs) (by simp [hpre]) i hi hc
  · have hcu : c ≠ u.1 := by
      rintro rfl
      exact (List.nodup_append.1 hnodup).2.2 u.1 humem u.1 (by simp [hbs]) rfl
    rw [hother c hcu]
    exact hlinks (as ++ x :: bs') c suf (by simp [hbs]) i hi hc

/-! ## Lowering the level -/

/-- The level is lowered to the height of the highest node, or to 1. -/
theorem shrinkLevel_spec {ns : Nodes K V} {header m : Nat} {as : List Nat}
    (hlinks : Links ns (header :: as) m) (hheader : m ≤ ns.height header) :
    ∀ n, 1 ≤ n → n ≤ m → (∀ a ∈ as, ns.height a ≤ n) →
      ∃ n', shrinkLevel ns header n = .ok n' ∧ 1 ≤ n' ∧ n' ≤ n ∧ (∀ a ∈ as, ns.height a ≤ n') ∧
        (n' = 1 ∨ ∃ a ∈ as, ns.height a = n') := by
  intro n
  induction n with
  | zero =>
      intro hn
      omega
  | succ n ih =>
      intro _ hnm hlow
      cases n with
      | zero => exact ⟨1, rfl, by omega, by omega, hlow, Or.inl rfl⟩
      | succ n =>
          have hl : ns.levelAt? header (n + 1) = some (link ns.height (n + 1) as) :=
            hlinks [] header as rfl (n + 1) (by omega) (by omega)
          cases hf : (link ns.height (n + 1) as).forward with
          | none =>
              obtain ⟨n', hrun, hpos, hle, hlow', htop⟩ :=
                ih (by omega) (by omega) (link_forward_eq_none_iff.1 hf)
              refine ⟨n', ?_, hpos, by omega, hlow', htop⟩
              rw [shrinkLevel, if_neg (by omega)]
              simp [Nodes.levelAt_of_some hl, hf, hrun]
          | some f =>
              obtain ⟨hmem, hhigh⟩ := link_forward_mem hf
              have := hlow f hmem
              refine ⟨n + 1 + 1, ?_, by omega, by omega, hlow, Or.inr ⟨f, hmem, by omega⟩⟩
              simp [shrinkLevel, Nodes.levelAt_of_some hl, hf]

/-! ## The list without the node -/

/-- `ns'` is `ns` with other pointers around the nodes. -/
structure Unlinked (ns ns' : Nodes K V) : Prop where
  next : ns'.next = ns.next
  obj : ∀ c, ns'.objAt? c = ns.objAt? c
  vals : ∀ c, ns'.valsAt? c = ns.valsAt? c
  height : ns'.height = ns.height

/-- The loop that takes the node out runs, and leaves the pointers of the list without it. -/
theorem unlinkNode_spec {ns : Nodes K V} {as bs : List Nat} {x m : Nat}
    {update : List (Nat × Nat)} (hlinks : Links ns (as ++ x :: bs) m)
    (hnodup : (as ++ x :: bs).Nodup) (hupd : UpdateOk ns.height as m update) :
    ∃ ns', forLevels (unlinkLevel x) 0 update ns = .ok ns' ∧ Nodes.SameNodes ns ns' ∧
      (∀ c, c ∉ as → ∀ i, ns'.levelAt? c i = ns.levelAt? c i) ∧
      (∀ j, m ≤ j → ns'.levels j = ns.levels j) ∧ Links ns' (as ++ bs) m := by
  -- Every `update[i]` has a pointer on its level, and so has `x` where that pointer leads to it.
  have hpre : ∀ k u, update[k]? = some u →
      ∃ lu, ns.levels (0 + k) u.1 = some lu ∧
        (lu.forward = some x → (ns.levels (0 + k) x).isSome) := by
    intro k u hu
    have hk : k < m := by
      rw [← hupd.length]
      exact (List.getElem?_eq_some_iff.1 hu).1
    obtain ⟨pre, post, has, htall, _⟩ := hupd.last hu
    have hlu := hlinks pre u.1 (post ++ x :: bs) (by simp [has]) k hk htall
    refine ⟨_, by simpa [Nodes.levels] using hlu, ?_⟩
    intro hf
    rw [Nodes.levels_isSome_iff]
    simpa using (link_forward_mem hf).2
  obtain ⟨ns', hrun, hsame, hout, hin⟩ := forLevels_spec (unlinkLevel_step x) update 0 ns hpre
  have hin' : ∀ i u, update[i]? = some u → ns'.levels i = unlinked x u (ns.levels i) := by
    intro i u hu
    simpa using hin i u hu
  refine ⟨ns', hrun, hsame, ?_, ?_, hlinks.delete hnodup hupd hsame.height hin'⟩
  · intro c hc i
    show ns'.levels i c = ns.levels i c
    by_cases hi : i < m
    · obtain ⟨u, hu⟩ : ∃ u, update[i]? = some u :=
        ⟨_, List.getElem?_eq_getElem (by rw [hupd.length]; exact hi)⟩
      have hcu : c ≠ u.1 := by
        rintro rfl
        exact hc (hupd.last hu).mem
      rw [hin' i u hu]
      simp [unlinked, hcu]
    · rw [hout i (Or.inr (by rw [hupd.length]; omega))]
  · intro j hj
    exact hout j (Or.inr (by rw [hupd.length]; omega))

/-- The backward pointers after `x` has been taken out from between `as` and `bs`. -/
theorem Backs.delete {ns ms : Nodes K V} {as bs : List Nat} {x : Nat}
    (h : Backs ns none (as ++ x :: bs))
    (hhead : ∀ f, bs.head? = some f → ms.backAt? f = some as.getLast?)
    (hold : ∀ c ∈ as ++ bs, bs.head? ≠ some c → ms.backAt? c = ns.backAt? c)
    (hnodup : (as ++ bs).Nodup) : Backs ms none (as ++ bs) := by
  obtain ⟨has, _, hbs⟩ := backs_append.1 h
  refine backs_append.2 ⟨has.congr ?_, ?_⟩
  · intro a ha
    refine (hold a (by simp [ha]) ?_).symm
    intro hhd
    exact (List.nodup_append.1 hnodup).2.2 a ha a (List.mem_of_mem_head? hhd) rfl
  · cases bs with
    | nil => trivial
    | cons b bs =>
        refine ⟨by simpa using hhead b rfl, hbs.2.congr ?_⟩
        intro c hc
        refine (hold c (by simp [hc]) ?_).symm
        intro hhd
        obtain rfl : b = c := by simpa using hhd
        have := (List.nodup_append.1 hnodup).2.1
        simp [hc] at this

/-- Turning the backward pointer of the node behind `x` to the node in front of it takes `x` out of
the backward chain. -/
theorem Backs.setBackward?_delete {ns ms : Nodes K V} {as bs : List Nat} {x : Nat}
    (h : Backs ns none (as ++ x :: bs)) (hsame : Nodes.SameNodes ns ms)
    (hpos : ∀ f ∈ bs, 1 ≤ ns.height f) (hnodup : (as ++ bs).Nodup) :
    Backs (ms.setBackward? bs.head? as.getLast?) none (as ++ bs) := by
  refine h.delete ?_ ?_ hnodup
  · intro f hf
    obtain ⟨b, hb⟩ := Nodes.exists_backAt? (hpos f (List.mem_of_mem_head? hf))
    rw [Nodes.backAt?_setBackward?, if_pos hf, hsame.back, hb]
    rfl
  · intro c _ hhd
    rw [Nodes.backAt?_setBackward?, if_neg hhd, hsame.back]

/-- The run of `skiplistDeleteNode`: the node is out of the list, and still allocated. -/
theorem skiplistDeleteNode_spec {sl : Skiplist K V} {as bs : List Nat} {x y : Nat}
    {update : List (Nat × Nat)} (h : Linked sl (as ++ x :: bs))
    (hs : SearchOk sl as (x :: bs) y update) :
    ∃ sl', skiplistDeleteNode sl x update = .ok sl' ∧ sl'.header = sl.header ∧
      Unlinked sl.nodes sl'.nodes ∧ Linked sl' (as ++ bs) := by
  have hlinks : Links sl.nodes ((sl.header :: as) ++ x :: bs) sl.level := h.links
  have hnd : ((sl.header :: as) ++ x :: bs).Nodup := h.nodup
  obtain ⟨ns₁, hrun, hsame, hkeep, habove, hlinks₁⟩ := unlinkNode_spec hlinks hnd hs.updateOk
  have hxmem : x ∉ sl.header :: as := fun hx =>
    (List.nodup_append.1 hnd).2.2 x hx x (by simp) rfl
  have hnd' : (sl.header :: (as ++ bs)).Nodup :=
    (List.nodup_cons.1 (List.nodup_middle.1 hnd)).2
  have hxht : 1 ≤ sl.nodes.height x := h.height_pos x (by simp)
  -- The node itself still has its links and its backward pointer.
  have hlx : ns₁.levelAt? x 0 = some (link sl.nodes.height 0 bs) := by
    rw [hkeep x hxmem 0]
    exact hlinks (sl.header :: as) x bs rfl 0 h.level_pos hxht
  have hfwd : (link sl.nodes.height 0 bs).forward = bs.head? :=
    link_zero fun b hb => h.height_pos b (by simp [hb])
  have hxback : ns₁.backAt? x = some as.getLast? := by
    rw [hsame.back]
    simpa using ((backs_append.1 h.back).2).1
  obtain ⟨nx, hnx, hnxback⟩ : ∃ nx, ns₁.cell x = some nx ∧ nx.backward = as.getLast? := by
    simpa [Nodes.backAt?] using hxback
  let ns₂ := ns₁.setBackward? bs.head? as.getLast?
  have hht : ns₂.height = sl.nodes.height := by simp [ns₂, hsame.height]
  have hlinks₂ : Links ns₂ (sl.header :: (as ++ bs)) sl.level := by
    intro pre c suf hsplit i hi hc
    rw [hht, ← hsame.height] at hc ⊢
    simpa [ns₂] using hlinks₁ pre c suf (by simpa using hsplit) i hi hc
  have hheader : sl.level ≤ ns₂.height sl.header := by
    rw [hht, h.header_height]
    exact h.level_le
  have hheight : ∀ a ∈ as ++ bs, ns₂.height a ≤ sl.level := by
    intro a ha
    rw [hht]
    exact h.height_le a (by simp at ha ⊢; tauto)
  obtain ⟨level, hshrink, hpos, hle, hlow, htop⟩ :=
    shrinkLevel_spec hlinks₂ hheader sl.level h.level_pos (Nat.le_refl _) hheight
  refine ⟨{ header := sl.header
            tail := if bs.head?.isSome then sl.tail else as.getLast?
            length := sl.length - 1
            level := level
            nodes := ns₂ }, ?_, rfl, ⟨?_, ?_, ?_, hht⟩, ?_⟩
  · simp only [skiplistDeleteNode, hrun, ok_bind, Nodes.node, hnx, orFault_some,
      Nodes.levelAt_of_some hlx, hfwd, hnxback]
    simp only [ns₂] at hshrink
    simp only [hshrink, ok_bind, ns₂]
  · simp [ns₂, hsame.next]
  · intro c
    simp [ns₂, hsame.obj]
  · intro c
    simp [ns₂, hsame.vals]
  · exact
      { nodup := hnd'
        level_pos := hpos
        level_le := Nat.le_trans hle h.level_le
        header_height := (congrFun hht sl.header).trans h.header_height
        height_pos := by
          intro a ha
          show 1 ≤ ns₂.height a
          rw [hht]
          exact h.height_pos a (by simp at ha ⊢; tauto)
        height_le := hlow
        links := by
          intro pre c suf hsplit i hi hc
          exact hlinks₂ pre c suf hsplit i (Nat.lt_of_lt_of_le hi hle) hc
        above := by
          intro i hi hmax
          by_cases hold : i < sl.level
          · -- A level that the list has lost had no other node.
            refine ⟨_, hlinks₂ [] sl.header (as ++ bs) rfl i hold (by omega), ?_⟩
            refine link_forward_eq_none_iff.2 fun a ha => ?_
            exact Nat.le_trans (hlow a ha) hi
          · obtain ⟨l, hl, hf⟩ := h.above i (by omega) hmax
            have hsamelev := congrFun (habove i (by omega)) sl.header
            refine ⟨l, ?_, hf⟩
            rw [← hl]
            simpa [ns₂, Nodes.levels] using hsamelev
        top := htop
        back := h.back.setBackward?_delete hsame (fun f hf => h.height_pos f (by simp [hf]))
          (List.nodup_cons.1 hnd').2
        tail := by
          show (if bs.head?.isSome then sl.tail else as.getLast?) = (as ++ bs).getLast?
          cases bs with
          | nil => simp
          | cons b bs => simp [h.tail, List.getLast?_append, List.getLast?_cons]
        length := by
          show sl.length - 1 = (as ++ bs).length
          rw [h.length]
          simp }

/-! ## Deleting a value -/

/-- Without its bucket, the freed node is no part of the list. -/
theorem Rep.deleteNode {sl : Skiplist K V} {as bs : List (Bucket K V)} {b : Bucket K V} {y : Nat}
    {update : List (Nat × Nat)} (h : Rep sl (as ++ b :: bs))
    (hs : SearchOk sl (as.map Bucket.tag) ((b :: bs).map Bucket.tag) y update) :
    ∃ sl', skiplistDeleteNode sl b.tag update = .ok sl' ∧
      Rep { sl' with nodes := sl'.nodes.free b.tag } (as ++ bs) := by
  have hlinked : Linked sl (as.map Bucket.tag ++ b.tag :: bs.map Bucket.tag) := by
    simpa using h.linked
  obtain ⟨sl', hrun, hheader, hunl, hlinked'⟩ := skiplistDeleteNode_spec hlinked hs
  have hother : ∀ d ∈ as ++ bs, d.tag ≠ b.tag :=
    fun d hd => h.tag_ne (List.mem_append.1 hd)
  have hcell : ∀ c, c ≠ b.tag → (sl'.nodes.free b.tag).cell c = sl'.nodes.cell c :=
    fun c hc => Store.cell_free_of_ne sl'.nodes hc
  have hheader' : sl'.header ≠ b.tag := by
    rw [hheader]
    exact (h.tag_ne_header (by simp)).symm
  -- None of the nodes that are left is the one that is freed.
  have hcells : ∀ c ∈ sl'.header :: (as.map Bucket.tag ++ bs.map Bucket.tag), c ≠ b.tag := by
    intro c hc
    rcases List.mem_cons.1 hc with rfl | hc
    · exact hheader'
    · rw [← List.map_append] at hc
      obtain ⟨d, hd, rfl⟩ := List.mem_map.1 hc
      exact hother d hd
  have hlinked'' : Linked { sl' with nodes := sl'.nodes.free b.tag }
      (as.map Bucket.tag ++ bs.map Bucket.tag) := by
    refine hlinked'.withNodes ?_ ?_ ?_
    · intro c hc
      exact (Nodes.observations_congr (hcell c (hcells c hc))).1
    · intro c hc
      exact (Nodes.observations_congr (hcell c (hcells c hc))).2.1
    · intro c hc
      exact (Nodes.observations_congr (hcell c (hcells c (List.mem_cons_of_mem _ hc)))).2.2.2.2
  refine ⟨sl', hrun, by simpa using hlinked'', ?_, ?_, ?_, ?_⟩
  · have hobs := (Nodes.observations_congr (hcell sl'.header hheader')).2.2.2.1
    exact hobs.trans ((hunl.vals _).trans (hheader ▸ h.header_vals))
  · intro d hd
    have hobs := (Nodes.observations_congr (hcell d.tag (hother d hd))).2.2.1
    exact hobs.trans ((hunl.obj _).trans (h.obj d (by simp at hd ⊢; tauto)))
  · intro d hd
    have hobs := (Nodes.observations_congr (hcell d.tag (hother d hd))).2.2.2.1
    exact hobs.trans ((hunl.vals _).trans (h.vals d (by simp at hd ⊢; tauto)))
  · intro x k hx
    have hne : x ≠ b.tag := by
      rintro rfl
      have hfreed : (sl'.nodes.free b.tag).cell b.tag = none := Store.cell_free_self _ _
      rw [Nodes.objAt?, hfreed] at hx
      cases hx
    have hobs := (Nodes.observations_congr (hcell x hne)).2.2.1
    obtain ⟨d, hd, rfl⟩ := h.only x k ((hunl.obj x).symm.trans (hobs.symm.trans hx))
    refine ⟨d, ?_, rfl⟩
    have hdb : d ≠ b := fun heq => hne (heq ▸ rfl)
    simp [hdb] at hd ⊢
    exact hd

/-- Whether some bucket has the sought class. -/
def hasKey (c : K → Int) (bs : List (Bucket K V)) : Bool :=
  bs.any fun b => decide (c b.key = 0)

/-- `skiplistDelete` is deletion from the list of buckets. -/
theorem Rep.delete {sl : Skiplist K V} {bs : List (Bucket K V)} {compare : K → K → Exec Int}
    {obj : K} {c : K → Int} (h : Rep sl bs) (hc : Compares compare obj c bs)
    (hpos : Bucket.Position c bs) (valcmp : V → V → Int) (val : Option V) :
    ∃ sl', skiplistDelete compare valcmp sl obj val = .ok (sl', hasKey c bs) ∧
      Rep sl' (Bucket.delete c (remainingVals valcmp val) bs) := by
  rcases hpos with ⟨as, b, cs, rfl, hbelow, hhit, habove⟩ | ⟨as, cs, rfl, hbelow, habove⟩
  · obtain ⟨y, update, hsearch, hs, hmatch⟩ := h.search_present hc hbelow hhit habove
    obtain ⟨n, hn, hvals⟩ := Nodes.cell_of_valsAt? (h.vals b (by simp))
    have hhas : hasKey c (as ++ b :: cs) = true := by
      simp [hasKey, hhit]
    rw [Bucket.delete_append hbelow, Bucket.delete_cons_of_eq hhit, hhas]
    by_cases hnil : remainingVals valcmp val b.vals = []
    · obtain ⟨sl', hrun, hrep⟩ := h.deleteNode hs
      refine ⟨_, ?_, by simpa [hnil] using hrep⟩
      simp [skiplistDelete, hsearch, hmatch, Nodes.node, hn, hvals, hnil, hrun]
    · refine ⟨_, ?_, by
        simpa [hnil] using h.setVals (remainingVals valcmp val b.vals)⟩
      simp [skiplistDelete, hsearch, hmatch, Nodes.node, hn, hvals, hnil]
  · obtain ⟨y, update, hsearch, hs, hmatch⟩ := h.search_absent hc hbelow habove
    have hhas : hasKey c (as ++ cs) = false := by
      simp only [hasKey, List.any_eq_false, List.mem_append, decide_eq_true_eq]
      rintro d (hd | hd)
      · exact Int.ne_of_lt (hbelow d hd)
      · exact (Int.ne_of_lt (habove d hd)).symm
    rw [hhas]
    refine ⟨sl, by simp [skiplistDelete, hsearch, hmatch], ?_⟩
    rw [Bucket.delete_append hbelow]
    cases cs with
    | nil => exact h
    | cons d cs =>
        rw [Bucket.delete_cons_of_gt (habove d (by simp))]
        exact h

end Secondary
