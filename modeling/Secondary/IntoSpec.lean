import Secondary.Into

/-!
# IntoSpec — what the loop of `IDX.INTO ... WHERE ...` returns

A round takes the id that it returns off the ids that are still to be returned, where the id has a
node of its own and its entry is gone or has a tuple that is not scanned any more.  So the loop
returns every id once that matched at its start, and it ends, since every round leaves fewer.
-/

namespace Secondary

open Lib

/-! ## The cursor after a change -/

section Cursor

variable {idx idx' : CompoundIndex} {bs bs' pending : List (Bucket KeyRef SIId)}
  {b : Bucket KeyRef SIId} {id : SIId} {sc sc' : CiScanCtx}

/-- Buckets of one node are one. -/
theorem bucket_of_tag (h : Rep idx.sl bs) {d : Bucket KeyRef SIId} (hb : b ∈ bs) (hd : d ∈ bs)
    (htag : b.tag = d.tag) : b = d :=
  List.inj_on_of_nodup_map h.nodup_tags hb hd htag

theorem aboveRange_congr {r : SIPlanRange} {s : KeyRef} (hsame : SameSpec idx idx')
    (hcell : idx'.keys.cell s = idx.keys.cell s) : aboveRange idx' r s = aboveRange idx r s := by
  have hbound : boundCmp idx' r.max s = boundCmp idx r.max s := by
    simp only [boundCmp, CompoundIndex.compareBound, compareBound, readKey, hsame.cmpFuncs, hcell]
  rw [aboveRange, aboveRange, hbound]

/-- The cursor goes on where it stands, if the node is still there. -/
theorem scanAt_of_kept (h : IndexInv idx bs) (h' : IndexInv idx' bs') (hsame : SameSpec idx idx')
    (hkept : OthersKept idx bs id idx') (hat : ScanAt idx bs sc pending) (hfirst : AtFirstValue sc)
    (hcurrent : ∀ it ∈ sc.it, ∀ y ∈ it.current, ∃ d ∈ bs, d.tag = y ∧ id ∉ d.vals) :
    (∃ pending', ScanAt idx' bs' sc pending') ∧
      ∀ k, AheadInRange idx' sc k ↔ AheadInRange idx sc k := by
  have hnode : ∀ it ∈ sc.it, ∀ y ∈ it.current, nodeKey idx' y = nodeKey idx y := by
    intro it hit y hy
    obtain ⟨d, hd, rfl, hid⟩ := hcurrent it hit y hy
    obtain ⟨hobj, hcell⟩ := hkept.node d hd hid
    simp [nodeKey, hobj, h.rep.obj d hd, hcell]
  constructor
  · cases hr : sc.currentRange with
    | none => exact ⟨[], by simp [ScanAt, hr]⟩
    | some r =>
        simp only [ScanAt, hr] at hat ⊢
        obtain ⟨it, hsc, hmax, hexcl, hit⟩ := hat
        suffices hnew : ∃ pending', IterAt bs' (aboveRange idx' r) it pending' by
          obtain ⟨pending', hnew⟩ := hnew
          exact ⟨pending', it, hsc, hmax, hexcl, hnew⟩
        cases hit with
        | done current => exact ⟨[], .done current⟩
        | «at» as b cs split current offset within =>
            -- The node that the iterator is at is still there, under its old key.
            have hb : b ∈ bs := by simp [split]
            obtain ⟨d, hd, htag, hid⟩ := hcurrent it hsc b.tag current
            obtain rfl := bucket_of_tag h.rep hd hb htag
            obtain ⟨hobj, hcell⟩ := hkept.node d hd hid
            obtain ⟨d', hd', htag'⟩ := h'.rep.only d.tag d.key hobj
            have hkey : d'.key = d.key := by
              have hobj' := h'.rep.obj d' hd'
              rw [htag', hobj] at hobj'
              exact (Option.some.inj hobj').symm
            obtain ⟨as', cs', hsplit'⟩ := List.append_of_mem hd'
            refine ⟨_, .at as' d' cs' hsplit' (htag' ▸ current) ?_ ?_⟩
            · rw [hfirst it hsc]
              exact List.length_pos_iff.2 (h'.nonempty d' hd')
            · rw [hkey, aboveRange_congr hsame hcell]
              exact within
  · intro k
    constructor
    · rintro ⟨r, it, x, kc, hr, hsc, hx, hkc, hrest⟩
      exact ⟨r, it, x, kc, hr, hsc, hx, (hnode it hsc x hx).symm.trans hkc,
        by rwa [hsame.cmpFuncs] at hrest⟩
    · rintro ⟨r, it, x, kc, hr, hsc, hx, hkc, hrest⟩
      exact ⟨r, it, x, kc, hr, hsc, hx, (hnode it hsc x hx).trans hkc,
        by rwa [hsame.cmpFuncs]⟩

/-- A cursor starts at the first value of a node. -/
theorem atFirstValue_find {q q' : SIQuery} {error : Int}
    (hfind : compoundIndexFind idx q = .ok (q', { error := error, ctx := some sc })) :
    AtFirstValue sc := by
  unfold compoundIndexFind at hfind
  split_ifs at hfind
  · cases hfind
  · obtain ⟨⟨q₁, plan⟩, _, hfind⟩ := bind_eq_ok.1 hfind
    cases plan with
    | none => cases hfind
    | some plan =>
        obtain ⟨sc₁, hstart, hfind⟩ := bind_eq_ok.1 hfind
        obtain ⟨_, hctx⟩ := Prod.mk.inj (Except.ok.inj hfind)
        obtain rfl : sc₁ = sc := Option.some.inj (congrArg SICursor.ctx hctx)
        unfold CiScanCtx.startRange at hstart
        split at hstart
        · obtain rfl := Except.ok.inj hstart
          intro it hit
          cases hit
        · obtain ⟨it₁, hiterate, hstart⟩ := bind_eq_ok.1 hstart
          obtain rfl := Except.ok.inj hstart
          intro it hit
          obtain rfl : it₁ = it := Option.some.inj hit
          obtain ⟨n, _, hiterate⟩ := bind_eq_ok.1 hiterate
          obtain ⟨m, _, hiterate⟩ := bind_eq_ok.1 hiterate
          rw [← Except.ok.inj hiterate]

/-- The cursor of the loop between two rounds. -/
structure CursorAt (idx : CompoundIndex) (bs : List (Bucket KeyRef SIId)) (sc : CiScanCtx)
    (pending : List (Bucket KeyRef SIId)) : Prop where
  inv : IndexInv idx bs
  plan : PlanOk idx.spec.types sc.plan
  scan : ScanAt idx bs sc pending
  first : AtFirstValue sc

theorem CursorAt.mem_toReturn (h : CursorAt idx bs sc pending) (x : SIId) :
    x ∈ toReturn idx bs sc pending ↔ ∃ c, idx.content x = some c ∧ StillToScan idx sc c :=
  Secondary.mem_toReturn h.inv h.plan h.scan h.first x

/-- What `Next` returns is the first of the ids that are still to be returned. -/
theorem CursorAt.returned (h : CursorAt idx bs sc pending) {ret : Option SIId}
    (hnext : scanNext idx sc = .ok (sc', ret)) : (toReturn idx bs sc pending).head? = ret := by
  obtain ⟨_, _, hnext', _⟩ := scanNext_spec h.inv.list h.plan h.scan
  exact (Prod.mk.inj (Except.ok.inj (hnext'.symm.trans hnext))).2

theorem CursorAt.returned_some (h : CursorAt idx bs sc pending)
    (hnext : scanNext idx sc = .ok (sc', some id)) :
    ∃ k, idx.content id = some k ∧ StillToScan idx sc k :=
  (h.mem_toReturn id).1 (List.mem_of_mem_head? (h.returned hnext))

theorem CursorAt.returned_none (h : CursorAt idx bs sc pending)
    (hnext : scanNext idx sc = .ok (sc', none)) {x : SIId} {c : SIMultiKey}
    (hc : idx.content x = some c) : ¬StillToScan idx sc c := by
  intro hscan
  have hmem := (h.mem_toReturn x).2 ⟨c, hc, hscan⟩
  rw [List.head?_eq_none_iff.1 (h.returned hnext)] at hmem
  cases hmem

/-- What is left of the current range are nodes of the list. -/
theorem CursorAt.pending_subset (h : CursorAt idx bs sc pending) : pending ⊆ bs := by
  have hat := h.scan
  cases hr : sc.currentRange with
  | none =>
      simp only [ScanAt, hr] at hat
      simp [hat]
  | some r =>
      simp only [ScanAt, hr] at hat
      obtain ⟨it, hsc, _, _, hit⟩ := hat
      cases hit with
      | done => simp
      | «at» as b cs split =>
          rw [h.first it hsc, List.drop_zero, split]
          refine List.cons_subset.2 ⟨by simp, fun d hd => ?_⟩
          exact List.mem_append_right _ (List.mem_cons_of_mem _ (List.takeWhile_subset _ hd))

theorem head?_passing {plan : SIQueryPlan} {ds : List (Bucket KeyRef SIId)}
    (h : (passing idx plan ds).head? = some id) : ∃ d ∈ ds, d.vals.head? = some id := by
  rw [passing, Bucket.allVals, List.head?_flatMap] at h
  obtain ⟨d, hd, hid⟩ := List.exists_of_findSome?_eq_some h
  exact ⟨d, List.mem_of_mem_filter hd, hid⟩

/-- `Next` returns the first id of a node. -/
theorem CursorAt.returned_first (h : CursorAt idx bs sc pending)
    (hnext : scanNext idx sc = .ok (sc', some id)) : ∃ d ∈ bs, d.vals.head? = some id := by
  have hhead := h.returned hnext
  rw [toReturn, List.head?_append, Option.or_eq_some_iff] at hhead
  rcases hhead with hhead | ⟨_, hhead⟩
  · obtain ⟨d, hd, hid⟩ := head?_passing hhead
    exact ⟨d, h.pending_subset hd, hid⟩
  · rw [List.head?_flatMap] at hhead
    obtain ⟨r, _, hid⟩ := List.exists_of_findSome?_eq_some hhead
    obtain ⟨d, hd, hid⟩ := head?_passing hid
    exact ⟨d, List.mem_of_mem_filter hd, hid⟩

/-- The key of this node is the id's own, so the id is alone there if the key is not shared. -/
theorem CursorAt.returned_single (h : CursorAt idx bs sc pending)
    (hnext : scanNext idx sc = .ok (sc', some id)) (hk : KeyNotShared idx id) :
    ∃ d ∈ bs, d.vals = [id] ∧
      ∃ r, idx.ri.lookup id = some r ∧ ∀ b ∈ bs, b.key = r → b.vals = [id] := by
  obtain ⟨d, hd, hid⟩ := h.returned_first hnext
  obtain ⟨id', hid', hl⟩ := h.inv.head d hd
  obtain rfl : id' = id := Option.some.inj (hid'.symm.trans hid)
  have hvals := h.inv.vals_of_keyNotShared hk hl
  exact ⟨d, hd, hvals d hd rfl, d.key, hl, hvals⟩

/-- After the only id of a node, a change of this id keeps the cursor, and what it has still to
scan of the other ids. -/
theorem CursorAt.kept (h : CursorAt idx bs sc pending)
    (hnext : scanNext idx sc = .ok (sc', some id)) (hb : b ∈ bs) (hone : b.vals = [id])
    (hinv : IndexInv idx' bs') (hsame : SameSpec idx idx') (hkept : OthersKept idx bs id idx') :
    ∃ pending', CursorAt idx' bs' sc' pending' ∧
      (∀ c, AheadInRange idx' sc' c ↔ AheadInRange idx sc' c) ∧
      ∀ x c, x ≠ id → idx.content x = some c → (StillToScan idx' sc' c ↔ StillToScan idx sc c) := by
  obtain ⟨sc₁, pending₁, hnext₁, hplan, hat, hrest⟩ := scanNext_spec h.inv.list h.plan h.scan
  obtain ⟨rfl, hhead⟩ := Prod.mk.inj (Except.ok.inj (hnext₁.symm.trans hnext))
  -- The cursor has left the node of the id, so the command keeps what it is at.
  obtain ⟨hfirst, hcurrent⟩ := scanNext_single h.inv hnext hb hone
  obtain ⟨⟨pending', hat'⟩, hahead⟩ := scanAt_of_kept h.inv hinv hsame hkept hat hfirst hcurrent
  have hplan' : PlanOk idx.spec.types sc₁.plan := hplan ▸ h.plan
  refine ⟨pending', ⟨hinv, by rwa [hsame.spec], hat', hfirst⟩, hahead, fun x c hx hc => ?_⟩
  have hsame' : StillToScan idx' sc₁ c ↔ StillToScan idx sc₁ c := by
    simp only [StillToScan, hahead, hsame.cmpFuncs]
  -- Of the list without its head, the other ids are those of the list.
  have hlist : toReturn idx bs sc pending = id :: (toReturn idx bs sc pending).tail :=
    (List.cons_head?_tail hhead).symm
  have hbefore := h.mem_toReturn x
  have hafter := Secondary.mem_toReturn h.inv hplan' hat hfirst x
  rw [hlist, List.mem_cons, or_iff_right hx, ← hrest, hafter] at hbefore
  simpa [hsame', hc] using hbefore

end Cursor

/-! ## The loop -/

/-- Round `n` handles the id that it returns: the id has a node of its own, and the command makes
`g` of its tuple, nothing that is still to be scanned. -/
def Handles (cmd : Nat → SIId → CompoundIndex → Exec CompoundIndex)
    (g : SIMultiKey → Option SIMultiKey) (P : Nat → CompoundIndex → CiScanCtx → Prop) : Prop :=
  ∀ ⦃n : Nat⦄ ⦃idx : CompoundIndex⦄ ⦃bs pending : List (Bucket KeyRef SIId)⦄ ⦃sc sc' : CiScanCtx⦄
    ⦃id : SIId⦄ ⦃k : SIMultiKey⦄ ⦃b : Bucket KeyRef SIId⦄, P n idx sc →
    CursorAt idx bs sc pending → scanNext idx sc = .ok (sc', some id) → b ∈ bs → id ∈ b.vals →
    idx.content id = some k → StillToScan idx sc k →
    b.vals = [id] ∧ ∃ idx' bs', cmd n id idx = .ok idx' ∧ IndexInv idx' bs' ∧
      SameSpec idx idx' ∧ OthersKept idx bs id idx' ∧ idx'.content id = g k ∧
      (∀ k' ∈ g k, ¬StillToScan idx sc' k') ∧
      ((∀ c, AheadInRange idx' sc' c ↔ AheadInRange idx sc' c) →
        (∀ x c, x ≠ id → idx.content x = some c →
          (StillToScan idx' sc' c ↔ StillToScan idx sc c)) → P (n + 1) idx' sc')

section Loop

variable {cmd : Nat → SIId → CompoundIndex → Exec CompoundIndex}
  {g : SIMultiKey → Option SIMultiKey} {P : Nat → CompoundIndex → CiScanCtx → Prop} {n : Nat}
  {idx : CompoundIndex} {bs pending : List (Bucket KeyRef SIId)} {sc : CiScanCtx}

/-- A round takes the first id of the list; the other ids of the rest are still to be returned. -/
theorem round_spec (hcmd : Handles cmd g P) (hP : P n idx sc) (h : CursorAt idx bs sc pending)
    {id : SIId} {rest : List SIId} (hreturn : toReturn idx bs sc pending = id :: rest) :
    ∃ sc' idx' bs' pending', scanNext idx sc = .ok (sc', some id) ∧ cmd n id idx = .ok idx' ∧
      CursorAt idx' bs' sc' pending' ∧ SameSpec idx idx' ∧ OthersKept idx bs id idx' ∧
      idx'.content id = (idx.content id).bind g ∧ P (n + 1) idx' sc' ∧
      ∀ x, x ∈ toReturn idx' bs' sc' pending' ↔ x ≠ id ∧ x ∈ rest := by
  obtain ⟨sc', _, hnext, _⟩ := scanNext_spec h.inv.list h.plan h.scan
  rw [hreturn, List.head?_cons] at hnext
  obtain ⟨k, hk, hscan⟩ := (h.mem_toReturn id).1 (by simp [hreturn])
  obtain ⟨b, hb, hid⟩ := h.inv.exists_bucket hk
  obtain ⟨hone, idx', bs', hrun, hinv, hsame, hkept, hnew, hdone, hP'⟩ :=
    hcmd hP h hnext hb hid hk hscan
  obtain ⟨pending', h', hahead, hothers⟩ := h.kept hnext hb hone hinv hsame hkept
  refine ⟨sc', idx', bs', pending', hnext, hrun, h', hsame, hkept, by rw [hnew, hk]; rfl,
    hP' hahead hothers, fun x => ?_⟩
  rw [h'.mem_toReturn]
  by_cases hx : x = id
  · -- What the command has made of the tuple is not scanned again.
    subst hx
    rw [hnew]
    constructor
    · rintro ⟨k', hk', hscan'⟩
      simp only [StillToScan, hahead, hsame.cmpFuncs] at hscan'
      exact absurd hscan' (hdone k' hk')
    · exact fun h => absurd rfl h.1
  · have hbefore := h.mem_toReturn x
    rw [hreturn, List.mem_cons, or_iff_right hx] at hbefore
    rw [hkept.content x hx, hbefore]
    constructor
    · rintro ⟨c, hc, hscan'⟩
      exact ⟨hx, c, hc, (hothers x c hx hc).1 hscan'⟩
    · rintro ⟨_, c, hc, hscan'⟩
      exact ⟨c, hc, (hothers x c hx hc).2 hscan'⟩

/-- What `P` says holds in every round that the loop gets to. -/
theorem reaches_spec (hcmd : Handles cmd g P) {n' : Nat} {idx' : CompoundIndex} {sc' : CiScanCtx}
    (hreach : Reaches cmd n idx sc n' idx' sc') :
    ∀ {bs pending : List (Bucket KeyRef SIId)}, P n idx sc → CursorAt idx bs sc pending →
      P n' idx' sc' ∧ ∃ bs' pending', CursorAt idx' bs' sc' pending' := by
  induction hreach with
  | refl n idx sc =>
      intro bs pending hP h
      exact ⟨hP, bs, pending, h⟩
  | next next command _ ih =>
      intro bs pending hP h
      obtain ⟨sc₁, idx₁, bs₁, pending₁, hnext, hrun, h', _, _, _, hP', _⟩ :=
        round_spec hcmd hP h (List.cons_head?_tail (h.returned next)).symm
      obtain ⟨rfl, _⟩ := Prod.mk.inj (Except.ok.inj (hnext.symm.trans next))
      obtain rfl := Except.ok.inj (hrun.symm.trans command)
      exact ih hP' h'

/-- One id fewer is still to be returned. -/
theorem card_others_le {ys rest : List SIId} {id : SIId} {size : Nat}
    (hothers : ∀ x, x ∈ ys ↔ x ≠ id ∧ x ∈ rest) (hsize : (id :: rest).toFinset.card ≤ size + 1) :
    ys.toFinset.card ≤ size := by
  have hsub : ys.toFinset ⊆ (id :: rest).toFinset.erase id := by
    intro x hx
    obtain ⟨hne, hxrest⟩ := (hothers x).1 (List.mem_toFinset.1 hx)
    exact Finset.mem_erase.2 ⟨hne, by simp [hxrest]⟩
  have herase := Finset.card_erase_lt_of_mem (show id ∈ (id :: rest).toFinset by simp)
  have := Finset.card_le_card hsub
  omega

/-- A loop whose rounds handle their ids returns each id that is still to be scanned once. -/
theorem into_spec (hcmd : Handles cmd g P) :
    ∀ (size : Nat) {n : Nat} {idx : CompoundIndex} {bs pending : List (Bucket KeyRef SIId)}
      {sc : CiScanCtx}, (toReturn idx bs sc pending).toFinset.card ≤ size → P n idx sc →
      CursorAt idx bs sc pending →
      ∃ ids idx', Into cmd n idx sc ids idx' ∧ ids.Nodup ∧ Inv idx.spec idx' ∧
        (∀ id, id ∈ ids ↔ ∃ k, idx.content id = some k ∧ StillToScan idx sc k) ∧
        ∀ id, idx'.content id =
          if id ∈ ids then (idx.content id).bind g else idx.content id := by
  intro size
  -- Each round leaves one id fewer to be returned, whatever the command does to its tuple.
  induction size with
  | zero =>
      intro n idx bs pending sc hsize _ h
      obtain ⟨sc', _, hnext, _⟩ := scanNext_spec h.inv.list h.plan h.scan
      have hnil : toReturn idx bs sc pending = [] := by
        simpa [Finset.card_eq_zero] using hsize
      rw [hnil] at hnext
      refine ⟨[], idx, .done hnext, List.nodup_nil, ⟨rfl, bs, h.inv⟩, fun id => ?_,
        fun id => by simp⟩
      rw [← h.mem_toReturn, hnil]
  | succ size ih =>
      intro n idx bs pending sc hsize hP h
      cases hreturn : toReturn idx bs sc pending with
      | nil =>
          obtain ⟨sc', _, hnext, _⟩ := scanNext_spec h.inv.list h.plan h.scan
          rw [hreturn] at hnext
          refine ⟨[], idx, .done hnext, List.nodup_nil, ⟨rfl, bs, h.inv⟩, fun id => ?_,
            fun id => by simp⟩
          rw [← h.mem_toReturn, hreturn]
      | cons id rest =>
          rw [hreturn] at hsize
          obtain ⟨sc', idx', bs', pending', hnext, hrun, h', hsame, hkept, hnew, hP', hothers⟩ :=
            round_spec hcmd hP h hreturn
          obtain ⟨ids, idx'', hinto, hnodup, hinv, hids, hcontent⟩ :=
            ih (card_others_le hothers hsize) hP' h'
          have hids' : ∀ x, x ∈ ids ↔ x ≠ id ∧ x ∈ rest := fun x => by
            rw [hids, ← h'.mem_toReturn, hothers]
          refine ⟨id :: ids, idx'', .next hnext hrun hinto, ?_, hsame.spec ▸ hinv, ?_, ?_⟩
          · exact List.nodup_cons.2 ⟨fun hid' => ((hids' id).1 hid').1 rfl, hnodup⟩
          · intro x
            rw [← h.mem_toReturn, hreturn, List.mem_cons, List.mem_cons, hids']
            tauto
          · intro x
            rw [hcontent x]
            by_cases hx : x = id
            · subst hx
              have hnot : x ∉ ids := fun hx => ((hids' x).1 hx).1 rfl
              simp [hnot, hnew]
            · simp [hx, hkept.content x hx]

end Loop

/-! ## Deleting -/

/-- The only id with its tuple. -/
def CompoundIndex.Alone (idx : CompoundIndex) (id : SIId) (k : SIMultiKey) : Prop :=
  ∀ id' k', idx.content id' = some k' → CompareEqual idx.cmpFuncs k k' → id' = id

/-- An id that has its tuple alone has a node of its own, under its own key. -/
theorem single_of_alone {idx : CompoundIndex} {bs : List (Bucket KeyRef SIId)} {id : SIId}
    {k : SIMultiKey} {b : Bucket KeyRef SIId} (h : IndexInv idx bs) (hb : b ∈ bs)
    (hid : id ∈ b.vals) (hk : idx.content id = some k) (halone : idx.Alone id k) :
    b.vals = [id] ∧ ∃ r, idx.ri.lookup id = some r ∧ ∀ b ∈ bs, b.key = r → b.vals = [id] := by
  have hone : ∀ d ∈ bs, id ∈ d.vals → d.vals = [id] := by
    intro d hd hid'
    have hall : ∀ x ∈ d.vals, x = id := by
      intro x hx
      obtain ⟨kx, hkx⟩ := h.exists_content.1 ((h.mem x).1 (Bucket.mem_allVals.2 ⟨d, hd, hx⟩))
      exact halone x kx hkx ((h.same_bucket hd hd hid' hx hk hkx).2 rfl)
    have hrep : d.vals = List.replicate d.vals.length id := List.eq_replicate_of_mem hall
    have hle : d.vals.length ≤ 1 := List.nodup_replicate.1 (hrep ▸ h.bucket_nodup hd)
    rw [hrep, le_antisymm hle (List.length_pos_of_mem hid')]
    rfl
  obtain ⟨r, hl, _⟩ := content_eq_some.1 hk
  refine ⟨hone b hb hid, r, hl, ?_⟩
  rintro d hd rfl
  obtain ⟨id', hid', hl'⟩ := h.owner d hd
  obtain rfl := h.inj id' id d.key hl' hl
  exact hone d hd hid'

/-- A DEL leaves nothing of the id to scan. -/
theorem handles_deleteCommand (draw : Nat → Level) :
    Handles (deleteCommand draw) (fun _ => none) fun _ idx sc =>
      ∀ id k, idx.content id = some k → StillToScan idx sc k → idx.Alone id k := by
  intro n idx bs pending sc sc' id k b halone h _ hb hid hk hscan
  obtain ⟨hone, r, hl, hkey⟩ := single_of_alone h.inv hb hid hk (halone id k hk hscan)
  obtain ⟨idx', bs', hrun, hinv, hsame, hkept, hnone⟩ := deleteCommand_spec h.inv hl hkey draw n
  have hne : ∀ {x kx}, idx'.content x = some kx → x ≠ id := by
    rintro x kx hkx rfl
    rw [hnone] at hkx
    cases hkx
  refine ⟨hone, idx', bs', hrun, hinv, hsame, hkept, hnone, by simp, ?_⟩
  intro _ hothers x kx hkx hscanx y ky hky hequal
  have hx := hne hkx
  have hy := hne hky
  rw [hkept.content x hx] at hkx
  rw [hkept.content y hy] at hky
  rw [hsame.cmpFuncs] at hequal
  exact halone x kx hkx ((hothers x kx hx hkx).1 hscanx) y ky hky hequal

/-- `$1 = 1` -/
def equalToOne : SIQuery where
  root := siPredEquals 0 (.int32 1)
  numPredicates := 1

/-- An id has its tuple alone where no two tuples are equal. -/
theorem alone_of_noEqualTuples {idx : CompoundIndex} (h : idx.NoEqualTuples) {id : SIId}
    {k : SIMultiKey} (hk : idx.content id = some k) : idx.Alone id k :=
  fun id' k' hk' hequal => (h id id' k k' hk hk' hequal).symm

theorem noEqualTuples_of_unique {spec : SISpec} {idx₀ idx : CompoundIndex}
    (hnew : siNewCompoundIndex spec = .ok idx₀) (hu : spec.isUnique = true)
    {css : List (List (SIChange × Level))} (htyped : ∀ cs ∈ css, Typed spec cs)
    (hrun : run applyStep idx₀ css = .ok idx) : idx.NoEqualTuples := by
  obtain ⟨idx₁, hrun₁, ⟨rfl, bs, h⟩, _, _⟩ := (stands_new hnew).run htyped (Or.inl hu)
  obtain rfl : idx = idx₁ := Except.ok.inj (hrun.symm.trans hrun₁)
  exact h.single_iff.2 (h.unique hu)

end Secondary
