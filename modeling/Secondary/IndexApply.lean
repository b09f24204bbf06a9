import Secondary.IndexMap

/-!
# IndexApply — the order and the exits of a changeset

`compoundIndex_Apply` has one loop and several exits.  `Admits` says which changes the index takes
in the state they arrive in, `ArrivesAt` gives these states, and a changeset is in order when the
first change that is not admitted ends it, with nothing of its own left behind.
-/

namespace Secondary

open Lib

/-! ## Changes that are admitted -/

/-- The change can be applied: its type is one of the two, an ADD has the arity of the spec and, in
a unique index, no other id holds its tuple. -/
structure CompoundIndex.Admits (idx : CompoundIndex) (ch : SIChange) : Prop where
  known : ch.type ≠ .unknown
  arity : ch.type = .chAdd → ch.v.length = idx.spec.numProps
  alone : ch.type = .chAdd → idx.spec.isUnique = true → ¬idx.Conflict ch.id ch.v

/-- The two states cannot be told apart: only the allocator may have gone on. -/
structure SameState (idx idx' : CompoundIndex) : Prop where
  spec : idx'.spec = idx.spec
  cmpFuncs : idx'.cmpFuncs = idx.cmpFuncs
  numFuncs : idx'.numFuncs = idx.numFuncs
  sl : idx'.sl = idx.sl
  length : idx'.length = idx.length
  ri : idx'.ri = idx.ri
  keys : ∀ r, idx'.keys.cell r = idx.keys.cell r

theorem SameState.refl (idx : CompoundIndex) : SameState idx idx :=
  ⟨rfl, rfl, rfl, rfl, rfl, rfl, fun _ => rfl⟩

section Codes

variable {idx idx' : CompoundIndex} {id : SIId} {vals : List SIValue} {level : Level} {code : Int}

/-- Once the old entry is being replaced, nothing but a fault can go wrong. -/
theorem replaceEntry_code {key : Option KeyRef}
    (h : replaceEntry idx id vals key level = .ok (idx', code)) : code = siIndexOk := by
  obtain ⟨idx₁, _, h⟩ := bind_eq_ok.1 h
  have hlast : ∃ idx₂ : CompoundIndex, (idx₂, siIndexOk) = (idx', code) := by
    cases key <;>
      · obtain ⟨r, _, h⟩ := bind_eq_ok.1 h
        obtain ⟨idx₂, _, h⟩ := bind_eq_ok.1 h
        exact ⟨idx₂, Except.ok.inj h⟩
  obtain ⟨_, heq⟩ := hlast
  exact (congrArg Prod.snd heq).symm

/-- An ADD that is refused as a duplicate has allocated its tuple and freed it again. -/
theorem sameState_of_duplicate
    (h : compoundIndexApplyAdd idx id vals level = .ok (idx', siIndexDuplicateKey)) :
    SameState idx idx' := by
  have hcode : siIndexDuplicateKey ≠ siIndexOk := by decide
  by_cases hu : idx.spec.isUnique = true
  · simp only [compoundIndexApplyAdd, hu, if_true] at h
    obtain ⟨⟨idx₁, r⟩, halloc, h⟩ := bind_eq_ok.1 h
    obtain ⟨mk, _, halloc⟩ := bind_eq_ok.1 halloc
    obtain ⟨rfl, rfl⟩ := Prod.mk.inj (Except.ok.inj halloc)
    obtain ⟨found, _, h⟩ := bind_eq_ok.1 h
    cases found with
    | none => exact absurd (replaceEntry_code h) hcode
    | some n =>
        obtain ⟨x, _, h⟩ := bind_eq_ok.1 h
        obtain ⟨val, _, h⟩ := bind_eq_ok.1 h
        obtain ⟨idx₂, hfree, h⟩ := bind_eq_ok.1 h
        obtain ⟨_, _, hfree⟩ := bind_eq_ok.1 hfree
        obtain rfl := Except.ok.inj hfree
        split at h
        · exact absurd (congrArg Prod.snd (Except.ok.inj h)).symm hcode
        · obtain ⟨rfl, _⟩ := Prod.mk.inj (Except.ok.inj h)
          exact ⟨rfl, rfl, rfl, rfl, rfl, rfl, idx.keys.cell_free_alloc mk⟩
  · simp only [compoundIndexApplyAdd, hu, if_false, Bool.false_eq_true] at h
    exact absurd (replaceEntry_code h) hcode

end Codes

/-- One change: it goes through if it is admitted, and otherwise leaves the state alone. -/
theorem Inv.applyChange_admits {spec : SISpec} {idx : CompoundIndex} {ch : SIChange}
    (h : Inv spec idx) (htyped : ch.Typed spec.types)
    (hk : spec.isUnique = true ∨ (ch.Drops idx.spec.types → KeyNotShared idx ch.id))
    (level : Level) :
    ∃ idx' code, compoundIndexApplyChange idx ch level = .ok (idx', code) ∧ Inv spec idx' ∧
      (idx.Admits ch ↔ code = siIndexOk ∨ code = siIndexNotfound) ∧
      (¬idx.Admits ch → SameState idx idx') := by
  obtain ⟨idx', code, hrun, hinv, _, hchanged⟩ := h.applyChange htyped hk level
  have hprops : idx.spec.types.length = idx.spec.numProps := by simp [SISpec.types, SISpec.numProps]
  refine ⟨idx', code, hrun, hinv, ?_⟩
  -- One case for each way that a change can go.
  cases hchanged with
  | rejected bad =>
      have hno : ¬idx.Admits ch := by
        intro hadm
        rcases bad with htype | ⟨htype, hlen⟩
        · exact hadm.known htype
        · exact hlen ((hadm.arity htype).trans hprops.symm)
      exact ⟨iff_of_false hno (by decide), fun _ => SameState.refl _⟩
  | missing type absent =>
      have hyes : idx.Admits ch := ⟨by simp [type], by simp [type], by simp [type]⟩
      exact ⟨iff_of_true hyes (Or.inr rfl), fun hno => absurd hyes hno⟩
  | removed type content =>
      have hyes : idx.Admits ch := ⟨by simp [type], by simp [type], by simp [type]⟩
      exact ⟨iff_of_true hyes (Or.inl rfl), fun hno => absurd hyes hno⟩
  | added type arity outcome =>
      have hadm : idx.Admits ch ↔ (idx.spec.isUnique = true → ¬idx.Conflict ch.id ch.v) :=
        ⟨fun hadm => hadm.alone type,
          fun halone => ⟨by simp [type], fun _ => arity.trans hprops, fun _ => halone⟩⟩
      rw [hadm]
      cases outcome with
      | duplicate unique conflict _ _ _ _ =>
          have hadd : compoundIndexApplyAdd idx ch.id ch.v level =
              .ok (idx', siIndexDuplicateKey) := by
            simp only [compoundIndexApplyChange, type] at hrun
            split at hrun
            · cases hrun
            · exact hrun
          exact ⟨iff_of_false (fun halone => halone unique conflict) (by decide),
            fun _ => sameState_of_duplicate hadd⟩
      | kept _ _ _ alone _ =>
          exact ⟨iff_of_true (fun _ => alone) (Or.inl rfl), fun hno => absurd (fun _ => alone) hno⟩
      | stored alone _ =>
          exact ⟨iff_of_true alone (Or.inl rfl), fun hno => absurd alone hno⟩

/-! ## The states in between -/

/-- The loop gets to the change `ch`, behind the changes `before`, in the state `idx₁`. -/
def ArrivesAt (idx : CompoundIndex) (cs before : List (SIChange × Level))
    (ch : SIChange × Level) (idx₁ : CompoundIndex) : Prop :=
  ∃ after, cs = before ++ ch :: after ∧ compoundIndexApply idx before = .ok (idx₁, siIndexOk)

/-- Where the first change goes through, the loop goes on behind it. -/
theorem compoundIndexApply_cons {idx idx₁ : CompoundIndex} {ch : SIChange × Level} {code : Int}
    (h : compoundIndexApplyChange idx ch.1 ch.2 = .ok (idx₁, code))
    (hcode : code = siIndexOk ∨ code = siIndexNotfound) (cs : List (SIChange × Level)) :
    compoundIndexApply idx (ch :: cs) = compoundIndexApply idx₁ cs := by
  have hgo : ¬(code ≠ siIndexOk ∧ code ≠ siIndexNotfound) := by tauto
  simp [compoundIndexApply, h, hgo]

/-- Where it does not, the loop ends with its code. -/
theorem compoundIndexApply_cons_stop {idx idx₁ : CompoundIndex} {ch : SIChange × Level} {code : Int}
    (h : compoundIndexApplyChange idx ch.1 ch.2 = .ok (idx₁, code))
    (hcode : ¬(code = siIndexOk ∨ code = siIndexNotfound)) (cs : List (SIChange × Level)) :
    compoundIndexApply idx (ch :: cs) = .ok (idx₁, code) := by
  have hstop : code ≠ siIndexOk ∧ code ≠ siIndexNotfound := by tauto
  simp [compoundIndexApply, h, hstop]

/-- Changes that all go through hand their state on to the ones behind them. -/
theorem compoundIndexApply_append {after : List (SIChange × Level)} :
    ∀ {before : List (SIChange × Level)} {idx idx₁ : CompoundIndex},
      compoundIndexApply idx before = .ok (idx₁, siIndexOk) →
      compoundIndexApply idx (before ++ after) = compoundIndexApply idx₁ after
  | [], idx, idx₁, h => by
      obtain ⟨rfl, _⟩ := Prod.mk.inj (Except.ok.inj h)
      rfl
  | ch :: before, idx, idx₁, h => by
      have hrun := h
      obtain ⟨⟨idx₂, code⟩, hch, _⟩ := bind_eq_ok.1 h
      by_cases hcode : code = siIndexOk ∨ code = siIndexNotfound
      · rw [compoundIndexApply_cons hch hcode] at hrun
        rw [List.cons_append, compoundIndexApply_cons hch hcode, compoundIndexApply_append hrun]
      · rw [compoundIndexApply_cons_stop hch hcode] at hrun
        exact absurd (Or.inl (congrArg Prod.snd (Except.ok.inj hrun))) hcode

section ArrivesAt

variable {idx idx₁ idx₂ : CompoundIndex} {ch d : SIChange × Level}
  {cs before : List (SIChange × Level)}

theorem arrivesAt_first : ArrivesAt idx (ch :: cs) [] ch idx :=
  ⟨cs, rfl, rfl⟩

/-- The loop arrives at the first change, or at one of the others behind it. -/
theorem arrivesAt_cons_iff {code : Int}
    (h : compoundIndexApplyChange idx ch.1 ch.2 = .ok (idx₁, code)) :
    ArrivesAt idx (ch :: cs) before d idx₂ ↔
      (before = [] ∧ d = ch ∧ idx₂ = idx) ∨
        ((code = siIndexOk ∨ code = siIndexNotfound) ∧
          ∃ tail, before = ch :: tail ∧ ArrivesAt idx₁ cs tail d idx₂) := by
  constructor
  · rintro ⟨after, hcs, hrun⟩
    cases before with
    | nil =>
        obtain ⟨rfl, _⟩ := List.cons.inj hcs
        obtain ⟨rfl, _⟩ := Prod.mk.inj (Except.ok.inj hrun)
        exact Or.inl ⟨rfl, rfl, rfl⟩
    | cons c tail =>
        obtain ⟨rfl, htail⟩ := List.cons.inj hcs
        by_cases hcode : code = siIndexOk ∨ code = siIndexNotfound
        · rw [compoundIndexApply_cons h hcode] at hrun
          exact Or.inr ⟨hcode, tail, rfl, after, htail, hrun⟩
        · rw [compoundIndexApply_cons_stop h hcode] at hrun
          exact absurd (Or.inl (congrArg Prod.snd (Except.ok.inj hrun))) hcode
  · rintro (⟨rfl, rfl, rfl⟩ | ⟨hcode, tail, rfl, after, rfl, hrun⟩)
    · exact arrivesAt_first
    · exact ⟨after, rfl, by rw [compoundIndexApply_cons h hcode, hrun]⟩

end ArrivesAt

/-! ## Changesets -/

/-- The changeset is applied from left to right, up to the first change that is not admitted. -/
structure AppliesInOrder (idx : CompoundIndex) (cs : List (SIChange × Level)) : Prop where
  /-- It returns OK exactly if every change is admitted when the loop arrives at it, and otherwise
  in the state in which the loop has arrived at the one that is not. -/
  returns : ∃ idx' code, compoundIndexApply idx cs = .ok (idx', code) ∧
    (code = siIndexOk ↔ ∀ before ch idx₁, ArrivesAt idx cs before ch idx₁ → idx₁.Admits ch.1) ∧
    ∀ before ch idx₁, ArrivesAt idx cs before ch idx₁ → ¬idx₁.Admits ch.1 → SameState idx₁ idx'
  /-- A DEL of an id that is not there is passed over. -/
  missing : ∀ before ch after idx₁, cs = before ++ ch :: after →
    compoundIndexApply idx before = .ok (idx₁, siIndexOk) → ch.1.type = .chDel →
    ch.1.id ∉ idx₁.ri → compoundIndexApply idx cs = compoundIndexApply idx₁ after

/-- The loop, by induction on the changes: the invariant is that of the index. -/
theorem Inv.apply_returns {spec : SISpec} :
    ∀ {cs : List (SIChange × Level)} {idx : CompoundIndex}, Inv spec idx → Typed spec cs →
      spec.isUnique = true ∨ KeysNotShared idx cs →
      ∃ idx' code, compoundIndexApply idx cs = .ok (idx', code) ∧
        (code = siIndexOk ↔
          ∀ before ch idx₁, ArrivesAt idx cs before ch idx₁ → idx₁.Admits ch.1) ∧
        ∀ before ch idx₁, ArrivesAt idx cs before ch idx₁ → ¬idx₁.Admits ch.1 →
          SameState idx₁ idx' := by
  intro cs
  induction cs with
  | nil =>
      intro idx _ _ _
      have hnone : ∀ before ch idx₁, ¬ArrivesAt idx [] before ch idx₁ := by
        rintro before ch idx₁ ⟨after, hcs, _⟩
        simp at hcs
      exact ⟨idx, siIndexOk, rfl, iff_of_true rfl fun b c i h => absurd h (hnone b c i),
        fun b c i h => absurd h (hnone b c i)⟩
  | cons ch cs ih =>
      intro idx h htyped hk
      obtain ⟨idx₁, code, hrun, hinv, hadm, hsame⟩ :=
        h.applyChange_admits (htyped ch (by simp)) (hk.imp_right And.left) ch.2
      by_cases hcode : code = siIndexOk ∨ code = siIndexNotfound
      · -- The change goes through, and the rest is the loop from the state it leaves.
        have hkeys : spec.isUnique = true ∨ KeysNotShared idx₁ cs :=
          hk.imp_right fun hk => hk.2 idx₁ code hrun hcode
        obtain ⟨idx', code', hrun', hok, hlast⟩ :=
          ih hinv (fun c hc => htyped c (List.mem_cons_of_mem _ hc)) hkeys
        refine ⟨idx', code', by rw [compoundIndexApply_cons hrun hcode, hrun'], ?_, ?_⟩
        · rw [hok]
          constructor
          · intro hall before d idx₂ harr
            rcases (arrivesAt_cons_iff hrun).1 harr with ⟨_, rfl, rfl⟩ | ⟨_, tail, rfl, hlater⟩
            · exact hadm.2 hcode
            · exact hall tail d idx₂ hlater
          · intro hall tail d idx₂ harr
            have hlater := (arrivesAt_cons_iff hrun).2 (Or.inr ⟨hcode, tail, rfl, harr⟩)
            exact hall (ch :: tail) d idx₂ hlater
        · intro before d idx₂ harr hno
          rcases (arrivesAt_cons_iff hrun).1 harr with ⟨_, rfl, rfl⟩ | ⟨_, tail, rfl, hlater⟩
          · exact absurd (hadm.2 hcode) hno
          · exact hlast tail d idx₂ hlater hno
      · -- The change does not go through, and the loop gets no further than to it.
        have hrefused : ¬idx.Admits ch.1 := fun h => hcode (hadm.1 h)
        refine ⟨idx₁, code, compoundIndexApply_cons_stop hrun hcode cs, ?_, ?_⟩
        · refine iff_of_false (fun hok => hcode (Or.inl hok)) fun hall => ?_
          exact hrefused (hall [] ch idx arrivesAt_first)
        · intro before d idx₂ harr _
          rcases (arrivesAt_cons_iff hrun).1 harr with ⟨_, rfl, rfl⟩ | ⟨hgo, _⟩
          · exact hsame hrefused
          · exact absurd hgo hcode

/-- A DEL of an unknown id is no reason to stop. -/
theorem compoundIndexApply_missing {idx : CompoundIndex} {ch : SIChange × Level}
    (htype : ch.1.type = .chDel) (hid : ch.1.id ∉ idx.ri) (cs : List (SIChange × Level)) :
    compoundIndexApply idx (ch :: cs) = compoundIndexApply idx cs := by
  have hl : idx.ri.lookup ch.1.id = none := Finmap.lookup_eq_none.2 hid
  have hrun : compoundIndexApplyChange idx ch.1 ch.2 = .ok (idx, siIndexNotfound) := by
    simp [compoundIndexApplyChange, compoundIndexApplyDel, htype, hl]
  exact compoundIndexApply_cons hrun (Or.inr rfl) cs

/-- Changesets are applied in order, in every run in which no change drops the entry of an id
whose tuple is the key of a node with other ids. -/
theorem compoundIndexApply_inOrder {spec : SISpec} {idx : CompoundIndex} {m : TupleMap}
    (h : Reached spec idx m) {cs : List (SIChange × Level)} (htyped : Typed spec cs)
    (hkeys : spec.isUnique = true ∨ KeysNotShared idx cs) : AppliesInOrder idx cs where
  returns := h.stands.1.apply_returns htyped hkeys
  missing := by
    rintro before ch after idx₁ rfl hrun htype hid
    rw [compoundIndexApply_append hrun, compoundIndexApply_missing htype hid]

/-- In a unique index a DEL of an unknown id, an ADD that is a duplicate up to case, and an ADD
that is never reached. -/
theorem compoundIndexApply_inOrder_string :
    ∃ idx m, Reached (oneColumn .string siIndexUnique) idx m ∧
      AppliesInOrder idx
        [del idC, add idB (.string [88]), add idC (.string [121])] := by
  have hreached : ∃ idx m, Reached (oneColumn .string siIndexUnique) idx m :=
    ⟨_, _, _, [[add idA (.string [120])]], rfl, by decide, Or.inl (by decide), rfl, rfl⟩
  obtain ⟨idx, m, h⟩ := hreached
  exact ⟨idx, m, h, compoundIndexApply_inOrder h (by decide) (Or.inl (by decide))⟩

/-- The tuple that a node's key is from is dropped while another id is in the node: the ADD behind
it reads the key that has been freed. -/
theorem compoundIndexApply_sharedKey_faults :
    ∃ idx m, Reached (oneColumn .int32 0) idx m ∧
      Typed (oneColumn .int32 0) [del idA, add idC (.int32 2)] ∧
      ¬AppliesInOrder idx [del idA, add idC (.int32 2)] := by
  refine ⟨_, _, ⟨_, [[add idA (.int32 1), add idB (.int32 1)]], rfl, by decide, Or.inr ?_, rfl,
    rfl⟩, by decide, ?_⟩
  · decide +kernel
  · rintro ⟨⟨idx', code, hrun, _⟩, _⟩
    cases hrun

end Secondary
