import Secondary.QueryExact

/-!
# BinarySafe — strings with NUL bytes

`si_cmp_string` goes through `strncasecmp`, which ends at a NUL, and only then looks at the lengths.
So two strings of one length are equal to it when they agree, in any case of letters, up to and
including a NUL, whatever follows.  All other strings it tells apart, and then the index does: their
ids have nodes of their own, are no duplicates of each other and do not answer each other's
equality query.
-/

namespace Secondary

open Lib

/-! ## Strings that compare equal -/

/-- The same length, and the same bytes in any case of letters. -/
def SameUpToCase (s s' : List UInt8) : Prop :=
  List.Forall₂ (fun a b => tolower a = tolower b) s s'

/-- The strings agree up to a NUL, and differ behind it in some byte, but not in length. -/
def DifferBehindNul (s s' : List UInt8) : Prop :=
  ∃ p p' t t', s = p ++ 0 :: t ∧ s' = p' ++ 0 :: t' ∧ SameUpToCase p p' ∧
    t.length = t'.length ∧ ¬SameUpToCase t t'

theorem foldedBytes_append {p p' u u' : List UInt8} (hp : SameUpToCase p p')
    (hu : foldedBytes u = foldedBytes u') : foldedBytes (p ++ u) = foldedBytes (p' ++ u') := by
  induction hp with
  | nil => exact hu
  | @cons a b p p' hab _ ih =>
      have hzero : a = 0 ↔ b = 0 := by
        rw [← @tolower_eq_zero a, ← @tolower_eq_zero b, hab]
      simp only [List.cons_append, foldedBytes, hzero, hab, ih]

theorem SameUpToCase.folded {s s' : List UInt8} (h : SameUpToCase s s') :
    foldedBytes s = foldedBytes s' := by
  simpa using foldedBytes_append h (rfl : foldedBytes [] = foldedBytes [])

theorem DifferBehindNul.folded {s s' : List UInt8} (h : DifferBehindNul s s') :
    foldedBytes s = foldedBytes s' := by
  obtain ⟨p, p', t, t', rfl, rfl, hp, _, _⟩ := h
  exact foldedBytes_append hp rfl

theorem DifferBehindNul.cons {a b : UInt8} (hab : tolower a = tolower b) {s s' : List UInt8}
    (h : DifferBehindNul s s') : DifferBehindNul (a :: s) (b :: s') := by
  obtain ⟨p, p', t, t', rfl, rfl, hp, hlen, hne⟩ := h
  exact ⟨a :: p, b :: p', t, t', rfl, rfl, .cons hab hp, hlen, hne⟩

theorem DifferBehindNul.length_eq {s s' : List UInt8} (h : DifferBehindNul s s') :
    s.length = s'.length := by
  obtain ⟨p, p', t, t', rfl, rfl, hp, hlen, _⟩ := h
  have := hp.length_eq
  simp only [List.length_append, List.length_cons]
  omega

theorem SameUpToCase.of_append {p p' u u' : List UInt8} (hlen : p.length = p'.length)
    (h : SameUpToCase (p ++ u) (p' ++ u')) : SameUpToCase u u' := by
  induction p generalizing p' with
  | nil =>
      obtain rfl : p' = [] := List.length_eq_zero_iff.1 hlen.symm
      exact h
  | cons a p ih =>
      cases p' with
      | nil => simp at hlen
      | cons b p' =>
          obtain _ | ⟨_, h⟩ := h
          exact ih (by simpa using hlen) h

/-- Strings that differ behind a NUL are not the same. -/
theorem DifferBehindNul.not_same {s s' : List UInt8} (h : DifferBehindNul s s') :
    ¬SameUpToCase s s' := by
  obtain ⟨p, p', t, t', rfl, rfl, hp, _, hne⟩ := h
  intro hsame
  obtain _ | ⟨_, ht⟩ := hsame.of_append hp.length_eq
  exact hne ht

/-- The folded bytes of strings of one length say whether they agree up to a first NUL. -/
theorem foldedBytes_eq_iff :
    ∀ {s s' : List UInt8}, s.length = s'.length →
      (foldedBytes s = foldedBytes s' ↔ SameUpToCase s s' ∨ DifferBehindNul s s') := by
  intro s s' hlen
  refine ⟨?_, fun h => h.elim SameUpToCase.folded DifferBehindNul.folded⟩
  induction s generalizing s' with
  | nil =>
      intro _
      obtain rfl : s' = [] := List.length_eq_zero_iff.1 hlen.symm
      exact Or.inl .nil
  | cons a s ih =>
      intro h
      cases s' with
      | nil => simp at hlen
      | cons b s' =>
          rw [List.length_cons, List.length_cons, Nat.succ_inj] at hlen
          obtain ⟨rest, hrest⟩ := foldedBytes_cons a s
          obtain ⟨rest', hrest'⟩ := foldedBytes_cons b s'
          have hab : tolower a = tolower b := by
            rw [hrest, hrest', List.cons.injEq] at h
            exact UInt8.toNat_inj.1 h.1
          by_cases ha : a = 0
          · -- Nothing behind the NUL is compared.
            subst ha
            obtain rfl : b = 0 := tolower_eq_zero.1 hab.symm
            by_cases hs : SameUpToCase s s'
            · exact Or.inl (.cons hab hs)
            · exact Or.inr ⟨[], [], s, s', rfl, rfl, .nil, hlen, hs⟩
          · have hb : b ≠ 0 := fun hb => ha (tolower_eq_zero.1 (hab.trans (tolower_eq_zero.2 hb)))
            simp only [foldedBytes, ha, hb, if_false, List.cons.injEq] at h
            exact (ih hlen h.2).imp (.cons hab) (.cons hab)

/-- The places of strings. -/
theorem place_string_eq_iff {s s' : List UInt8} :
    (SIValue.string s).place = (SIValue.string s').place ↔
      SameUpToCase s s' ∨ DifferBehindNul s s' := by
  have hplace : (SIValue.string s).place = (SIValue.string s').place ↔
      foldedBytes s = foldedBytes s' ∧ s.length = s'.length := by
    simp only [SIValue.place, SIValue.rank, SIValue.placeInType, EmbeddingLike.apply_eq_iff_eq,
      Prod.mk.injEq, Int.natCast_inj, true_and]
  rw [hplace]
  constructor
  · rintro ⟨hbytes, hlen⟩
    exact (foldedBytes_eq_iff hlen).1 hbytes
  · intro h
    have hlen : s.length = s'.length := h.elim List.Forall₂.length_eq DifferBehindNul.length_eq
    exact ⟨(foldedBytes_eq_iff hlen).2 h, hlen⟩

theorem siCmpString_eq_zero_iff {s s' : List UInt8} :
    siCmpString (.string s) (.string s') = .ok 0 ↔ SameUpToCase s s' ∨ DifferBehindNul s s' := by
  rw [← place_string_eq_iff]
  exact cmp_eq_zero_iff rfl (Or.inr ⟨rfl, trivial⟩) (Or.inl (Or.inr ⟨rfl, trivial⟩))

/-! ## Strings in an index -/

/-- The tuple has the string in column `i`. -/
def HasString (k : SIMultiKey) (i : Nat) (s : List UInt8) : Prop :=
  k[i]? = some (.string s)

/-- What it means that the index tells `s` and `s'` apart, in every state that it reaches. -/
structure ToldApart (s s' : List UInt8) (spec : SISpec) (idx : CompoundIndex) (m : TupleMap) :
    Prop where
  /-- No key has ids of both strings. -/
  oneKey : ∀ id id' k k' i, m.lookup id = some k → m.lookup id' = some k' → HasString k i s →
    HasString k' i s' → ∀ x n r, idx.sl.nodes.cell x = some n → n.obj = some r →
    ¬(id ∈ n.vals ∧ id' ∈ n.vals)
  /-- A duplicate has the tuple of some third id. -/
  duplicate : ∀ id id' k vals i, m.lookup id = some k → KeyOk spec.types vals → HasString k i s →
    HasString vals i s' → ∀ level idx',
    compoundIndexApplyChange idx { type := .chAdd, id := id', v := vals } level =
      .ok (idx', siIndexDuplicateKey) →
    ∃ id'' k'', id'' ≠ id ∧ id'' ≠ id' ∧ m.lookup id'' = some k'' ∧
      CompareEqual idx.cmpFuncs k'' vals
  /-- A query that asks for the one string does not return an id of the other. -/
  query : ∀ id k i, m.lookup id = some k → HasString k i s → ∀ q : SIQuery,
    Plannable spec.types q.root → siPredEquals i (.string s') ∈ conjuncts q.root →
    ∀ q' c sc ids, compoundIndexFind idx q = .ok (q', c) → c.ctx = some sc → Drains idx sc ids →
    id ∉ ids

/-- `si_cmp_string` compares the strings byte for byte up to case, and where they differ, indexes
tell them apart. -/
structure ComparedBinarySafely (s s' : List UInt8) : Prop where
  compare : siCmpString (.string s) (.string s') = .ok 0 ↔ SameUpToCase s s'
  toldApart : ¬SameUpToCase s s' → ∀ spec idx m, Reached spec idx m →
    ToldApart s s' spec idx m ∧ ToldApart s' s spec idx m

section Index

variable {spec : SISpec} {idx : CompoundIndex} {m : TupleMap} {id : SIId} {k : SIMultiKey}

/-- The tuple that an index holds for an id has the places of the one that it was given. -/
theorem Reached.content_places (h : Reached spec idx m) (hk : m.lookup id = some k) :
    ∃ k', idx.content id = some k' ∧ places k' = places k := by
  obtain ⟨⟨rfl, bs, hinv⟩, _, hm⟩ := h.stands
  have hrel := hm.content id
  rw [hk] at hrel
  cases hk' : idx.content id with
  | none => simp [hk'] at hrel
  | some k' =>
      rw [hk', Option.rel_some_some] at hrel
      have hok := hinv.content_ok hk'
      exact ⟨k', rfl, (compareEqual_iff hinv.cmpFuncs hok (hm.typed id k hk)).1 hrel⟩

theorem place_of_hasString {i : Nat} {s : List UInt8} (hs : HasString k i s) :
    (places k)[i]? = some (SIValue.string s).place := by
  rw [places, List.getElem?_map, hs]
  rfl

/-- Tuples with strings of different places in one column have different places. -/
theorem places_ne {k' : SIMultiKey} {i : Nat} {s s' : List UInt8} (hs : HasString k i s)
    (hs' : HasString k' i s') (hne : (SIValue.string s).place ≠ (SIValue.string s').place) :
    places k ≠ places k' := by
  intro heq
  have hplace := place_of_hasString hs
  rw [heq, place_of_hasString hs', Option.some.injEq] at hplace
  exact hne hplace.symm

/-- Strings with different places are told apart. -/
theorem Reached.toldApart (h : Reached spec idx m) {s s' : List UInt8}
    (hne : (SIValue.string s).place ≠ (SIValue.string s').place) : ToldApart s s' spec idx m := by
  have hplaces := fun id k (hk : m.lookup id = some k) => h.content_places hk
  obtain ⟨⟨rfl, bs, hinv⟩, _, hm⟩ := h.stands
  refine ⟨?_, ?_, ?_⟩
  · rintro id id' k k' i hk hk' hs hs' x n r hx hobj ⟨hid, hid'⟩
    obtain ⟨k₀, hk₀, heq⟩ := hplaces id k hk
    obtain ⟨k₁, hk₁, heq'⟩ := hplaces id' k' hk'
    -- The node is one of the buckets, and all tuples of a bucket have the places of its key.
    obtain ⟨b, hb, rfl⟩ := hinv.rep.only x r (by simp [Nodes.objAt?, hx, hobj])
    have hvals : n.vals = b.vals := by
      simpa [Nodes.valsAt?, hx] using hinv.rep.vals b hb
    rw [hvals] at hid hid'
    have hkey := places_key hinv hb hid hk₀
    rw [places_key hinv hb hid' hk₁, heq, heq'] at hkey
    exact places_ne hs hs' hne hkey.symm
  · intro id id' k vals i hk hvals hs hs' level idx' hadd
    have harity : vals.length = idx.numFuncs.toNat := by
      rw [hvals.length_eq, hinv.numFuncs]
    have hadd' : compoundIndexApplyAdd idx id' vals level = .ok (idx', siIndexDuplicateKey) := by
      simpa [compoundIndexApplyChange, harity] using hadd
    by_cases hu : idx.spec.isUnique = true
    · obtain ⟨idx₁, _, code, hrun, _, _, hadded, _⟩ := hinv.applyAdd_unique hu hvals id' level
      obtain rfl : code = siIndexDuplicateKey :=
        congrArg Prod.snd (Except.ok.inj (hrun.symm.trans hadd'))
      have hconflict : idx.Conflict id' vals := by
        cases hadded with
        | duplicate _ conflict => exact conflict
      obtain ⟨id'', k'', hne'', hk'', hequal⟩ := (hm.conflict_iff hinv id' hvals).1 hconflict
      refine ⟨id'', k'', ?_, hne'', hk'', hequal⟩
      rintro rfl
      obtain rfl : k = k'' := Option.some.inj (hk.symm.trans hk'')
      exact places_ne hs hs' hne
        ((compareEqual_iff hinv.cmpFuncs (hm.typed _ k hk) hvals).1 hequal)
    · -- Without the flag no ADD is a duplicate.
      simp only [compoundIndexApplyAdd, hu, Bool.false_eq_true, if_false, replaceEntry] at hadd'
      obtain ⟨_, _, hadd'⟩ := bind_eq_ok.1 hadd'
      obtain ⟨_, _, hadd'⟩ := bind_eq_ok.1 hadd'
      obtain ⟨_, _, hadd'⟩ := bind_eq_ok.1 hadd'
      cases hadd'
  · intro id k i hk hs q hq hpred q' c sc ids hfind hctx hdrains hid
    obtain ⟨k₀, hk₀, heq⟩ := hplaces id k hk
    obtain ⟨k₁, hk₁, hsat⟩ := satisfies_of_drains hinv hq hfind hctx hdrains hid
    obtain rfl : k₀ = k₁ := Option.some.inj (hk₀.symm.trans hk₁)
    -- The tuple satisfies the predicate, so it has the place of the constant.
    have hok := hinv.content_ok hk₀
    have hholds := treeHolds_iff_conjuncts.1 hsat _ hpred
    have hpredOk := leaves_conjuncts hq.typed _ hpred
    have hat := (atColumn_iff (fun _ _ _ _ hf hv hp => predHolds_iff hf hv hp) hinv.cmpFuncs hok
      hpredOk).1 (hholds.resolve_left (by decide))
    obtain ⟨x, hx, hxs'⟩ := hat
    rw [Int.toNat_natCast, heq, place_of_hasString hs, Option.some.injEq] at hx
    exact hne (hx.trans hxs')

end Index

/-- All strings are compared binary-safely, but those that differ behind a NUL. -/
theorem siCmpString_binarySafe_iff (s s' : List UInt8) :
    ComparedBinarySafely s s' ↔ ¬DifferBehindNul s s' := by
  constructor
  · intro h hnul
    exact hnul.not_same (h.compare.1 (siCmpString_eq_zero_iff.2 (Or.inr hnul)))
  · intro hnul
    have hplace : (SIValue.string s).place = (SIValue.string s').place ↔ SameUpToCase s s' := by
      rw [place_string_eq_iff, or_iff_left hnul]
    refine ⟨by rw [siCmpString_eq_zero_iff, or_iff_left hnul], ?_⟩
    intro hdiff spec idx m h
    have hne := mt hplace.1 hdiff
    exact ⟨h.toldApart hne, h.toldApart (Ne.symm hne)⟩

/-- `a\0b` and `a\0c` are equal to `si_cmp_string`. -/
theorem siCmpString_behindNul_equal : ¬ComparedBinarySafely [97, 0, 98] [97, 0, 99] := by
  intro h
  have hsame : SameUpToCase [97, 0, 98] [97, 0, 99] := h.compare.1 rfl
  revert hsame
  unfold SameUpToCase
  decide

end Secondary
