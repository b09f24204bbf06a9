import Secondary.KeyOrder
import Secondary.Lib.Interval

/-!
# KeyLaws — `SICmpMultiKey` is an order, and bounds cut it

On full-length keys the sign of `SICmpMultiKey` is a total preorder with NULL on top of every
column.  Against a bound, which may be shorter and may contain +INF and -INF, the keys that compare
below it, or below or equal, are an initial segment of this order: that is what the searches of the
skiplist rest on.
-/

namespace Secondary

open Lib

/-! ## Keys and bounds of columns without floating point -/

/-- A key of full length. -/
def FullKey (types : List SIType) (k : SIMultiKey) : Prop :=
  List.Forall₂ OfType types k

/-- A bound on the first columns; it may be infinite in any of them. -/
def KeyBound (types : List SIType) (b : SIMultiKey) : Prop :=
  List.Forall₂ (fun t v => OfType t v ∨ v = .inf ∨ v = .negInf) (types.take b.length) b

/-- No column has floating-point values. -/
def NoFloats (types : List SIType) : Prop :=
  ∀ t ∈ types, t ≠ .float ∧ t ≠ .double

instance : DecidablePred NoFloats := fun types =>
  inferInstanceAs (Decidable (∀ t ∈ types, t ≠ .float ∧ t ≠ .double))

theorem valueOk_of_ofType {t : SIType} (ht : t ≠ .float ∧ t ≠ .double) {v : SIValue}
    (hv : OfType t v) : ValueOk t v := by
  rcases hv with rfl | hv
  · exact Or.inl rfl
  · subst hv
    refine Or.inr ⟨rfl, ?_⟩
    cases v with
    | float f => exact absurd rfl ht.1
    | double d => exact absurd rfl ht.2
    | _ => trivial

theorem FullKey.keyOk {types : List SIType} (htypes : NoFloats types) {k : SIMultiKey}
    (hk : FullKey types k) : KeyOk types k := by
  induction hk with
  | nil => exact .nil
  | cons hv _ ih =>
      obtain ⟨ht, htypes⟩ := List.forall_mem_cons.1 htypes
      exact .cons (valueOk_of_ofType ht hv) (ih htypes)

theorem KeyBound.boundsOk {types : List SIType} (htypes : NoFloats types) {b : SIMultiKey}
    (hb : KeyBound types b) : BoundsOk types b := by
  induction b generalizing types with
  | nil => cases types <;> exact True.intro
  | cons v b ih =>
      cases types with
      | nil => cases hb
      | cons t types =>
          obtain _ | ⟨hv, hrest⟩ := hb
          obtain ⟨ht, htypes⟩ := List.forall_mem_cons.1 htypes
          exact ⟨hv.imp_left (valueOk_of_ofType ht), ih htypes hrest⟩

/-! ## Order laws -/

/-- The sign of `SICmpMultiKey` on the keys of an index is a total preorder, with NULL above the
other values of its column. -/
structure OrderLaws (types : List SIType) (fs : List SIKeyCmpFunc) : Prop where
  refl : ∀ k, FullKey types k → siCmpMultiKey fs k k = .ok 0
  antisymm : ∀ k k', FullKey types k → FullKey types k' →
    ∃ c c', siCmpMultiKey fs k k' = .ok c ∧ siCmpMultiKey fs k' k = .ok c' ∧
      (c < 0 ↔ 0 < c') ∧ (c = 0 ↔ c' = 0) ∧ (0 < c ↔ c' < 0)
  total : ∀ k k', FullKey types k → FullKey types k' → CompareLe fs k k' ∨ CompareLe fs k' k
  trans : ∀ k k' k'', FullKey types k → FullKey types k' → FullKey types k'' →
    CompareLe fs k k' → CompareLe fs k' k'' → CompareLe fs k k''
  null_above : ∀ p v s p' s', FullKey types (p ++ v :: s) → FullKey types (p' ++ .null :: s') →
    p.length = p'.length → CompareEqual fs p p' → v ≠ .null →
    CompareLt fs (p ++ v :: s) (p' ++ .null :: s')

/-- The keys below a bound, and those not above it, are initial segments, and an infinite bound is
equal to no key. -/
structure BoundLaws (types : List SIType) (fs : List SIKeyCmpFunc) (b : SIMultiKey) : Prop where
  compares : ∀ k, FullKey types k → ∃ c, siCmpMultiKey fs k b = .ok c
  below : ∀ k k', FullKey types k → FullKey types k' → CompareLe fs k k' → CompareLt fs k' b →
    CompareLt fs k b
  notAbove : ∀ k k', FullKey types k → FullKey types k' → CompareLe fs k k' → CompareLe fs k' b →
    CompareLe fs k b
  infinite : .inf ∈ b ∨ .negInf ∈ b → ∀ k, FullKey types k → siCmpMultiKey fs k b ≠ .ok 0

section Laws

variable {types : List SIType} {fs : List SIKeyCmpFunc} (hfs : CmpFuncsOf types fs)

include hfs

/-- A NULL in the first column in which two keys differ. -/
theorem compareLt_null {p p' : SIMultiKey} {v : SIValue} {s s' : SIMultiKey}
    (hk : KeyOk types (p ++ v :: s)) (hk' : KeyOk types (p' ++ .null :: s'))
    (hlen : p.length = p'.length) (hequal : CompareEqual fs p p') (hv : v ≠ .null) :
    CompareLt fs (p ++ v :: s) (p' ++ .null :: s') := by
  induction p generalizing types fs p' with
  | nil =>
      obtain rfl : p' = [] := List.length_eq_zero_iff.1 hlen.symm
      cases hfs with
      | nil => cases hk
      | cons hf _ =>
          obtain _ | ⟨hvok, _⟩ := hk
          -- A value that is not NULL has a smaller rank.
          have hlt : v.place < SIValue.null.place := by
            have hrank : v.rank < SIValue.null.rank := by
              cases v <;> first | exact absurd rfl hv | simp [SIValue.rank]
            exact Prod.Lex.toLex_lt_toLex.2 (Or.inl hrank)
          obtain ⟨c, hc, hsigns⟩ := cmpFunc_signs hf hvok (Or.inl (Or.inl rfl))
          have hneg : c < 0 := hsigns.1.2 hlt
          refine ⟨c, ?_, hneg⟩
          have hne : c ≠ 0 := by omega
          simp [siCmpMultiKey, hc, hne]
  | cons w p ih =>
      cases p' with
      | nil => simp at hlen
      | cons w' p' =>
          cases hfs with
          | nil => cases hk
          | @cons _ _ _ fs hf hfs =>
              obtain _ | ⟨hw, hk⟩ := hk
              obtain _ | ⟨hw', hk'⟩ := hk'
              obtain ⟨c, hc, _⟩ := cmpFunc_signs hf hw (Or.inl hw')
              have hzero : c = 0 := by
                by_contra hne
                simp [CompareEqual, siCmpMultiKey, hc, hne] at hequal
              subst hzero
              have hequal' : CompareEqual fs p p' := by
                simpa [CompareEqual, siCmpMultiKey, hc] using hequal
              obtain ⟨d, hd, hneg⟩ := ih hfs hk hk' (by simpa using hlen) hequal'
              exact ⟨d, by simpa [siCmpMultiKey, hc] using hd, hneg⟩

theorem orderLaws (htypes : NoFloats types) : OrderLaws types fs where
  refl k hk := CompareEqual.refl hfs (hk.keyOk htypes)
  antisymm k k' hk hk' := by
    obtain ⟨c, hc, hsigns⟩ := siCmpMultiKey_signs_full hfs (hk.keyOk htypes) (hk'.keyOk htypes)
    obtain ⟨c', hc', hsigns'⟩ := siCmpMultiKey_signs_full hfs (hk'.keyOk htypes) (hk.keyOk htypes)
    refine ⟨c, c', hc, hc', ?_, ?_, ?_⟩
    · rw [hsigns.1, hsigns'.pos_iff]
    · rw [hsigns.2, hsigns'.2, eq_comm]
    · rw [hsigns.pos_iff, hsigns'.1]
  total k k' hk hk' := by
    rw [compareLe_iff hfs (hk.keyOk htypes) (hk'.keyOk htypes),
      compareLe_iff hfs (hk'.keyOk htypes) (hk.keyOk htypes)]
    exact le_total _ _
  trans k k' k'' hk hk' hk'' h h' := by
    rw [compareLe_iff hfs (hk.keyOk htypes) (hk'.keyOk htypes)] at h
    rw [compareLe_iff hfs (hk'.keyOk htypes) (hk''.keyOk htypes)] at h'
    rw [compareLe_iff hfs (hk.keyOk htypes) (hk''.keyOk htypes)]
    exact le_trans h h'
  null_above p v s p' s' hk hk' := compareLt_null hfs (hk.keyOk htypes) (hk'.keyOk htypes)

/-- Against a bound the comparator follows the places of the columns that the bound has. -/
theorem compare_bound_iff {k b : SIMultiKey} (hk : KeyOk types k) (hb : BoundsOk types b) :
    (CompareLt fs k b ↔ (places k).take b.length < places b) ∧
      (CompareLe fs k b ↔ (places k).take b.length ≤ places b) := by
  obtain ⟨c, hc, hsigns⟩ := siCmpMultiKey_signs hfs hk hb
  rw [← hsigns.1, ← hsigns.le_zero_iff]
  simp [CompareLt, CompareLe, hc]

omit hfs in
/-- The place of an infinity is that of no value of a column. -/
theorem place_ne_infinite {t : SIType} {v w : SIValue} (ht : ColumnType t) (hv : ValueOk t v)
    (hw : w = .inf ∨ w = .negInf) : v.place ≠ w.place := by
  have hrank : v.rank ≠ w.rank := by
    rcases hv with rfl | ⟨hv, _⟩
    · rcases hw with rfl | rfl <;> decide
    · rw [(rank_of_type ht hv).1]
      rcases hw with rfl | rfl <;> decide
  intro h
  have hpair : (v.rank, v.placeInType) = (w.rank, w.placeInType) := toLex.injective h
  exact hrank (Prod.mk.inj hpair).1

theorem take_places_ne {k b : SIMultiKey} (hk : KeyOk types k) (hinf : .inf ∈ b ∨ .negInf ∈ b) :
    (places k).take b.length ≠ places b := by
  obtain ⟨w, hw, hmem⟩ : ∃ w : SIValue, (w = .inf ∨ w = .negInf) ∧ w ∈ b := by
    rcases hinf with h | h
    · exact ⟨_, Or.inl rfl, h⟩
    · exact ⟨_, Or.inr rfl, h⟩
  intro h
  have hplace : w.place ∈ (places k).take b.length := h ▸ List.mem_map_of_mem hmem
  obtain ⟨v, hv, heq⟩ := List.mem_map.1 (List.mem_of_mem_take hplace)
  obtain ⟨i, hi, rfl⟩ := List.getElem_of_mem hv
  have hi' : i < types.length := hk.length_eq ▸ hi
  have hcolumn : ColumnType types[i] := by
    have hf := hfs.get hi' (hfs.length_eq ▸ hi')
    cases ht : types[i] <;> first | decide | (simp only [List.get_eq_getElem, ht] at hf; cases hf)
  exact place_ne_infinite hcolumn (hk.get hi' hi) hw heq

theorem boundLaws (htypes : NoFloats types) {b : SIMultiKey} (hb : KeyBound types b) :
    BoundLaws types fs b where
  compares k hk := by
    obtain ⟨c, hc, _⟩ := siCmpMultiKey_signs hfs (hk.keyOk htypes) (hb.boundsOk htypes)
    exact ⟨c, hc⟩
  below k k' hk hk' hle := by
    rw [compareLe_iff hfs (hk.keyOk htypes) (hk'.keyOk htypes)] at hle
    rw [(compare_bound_iff hfs (hk.keyOk htypes) (hb.boundsOk htypes)).1,
      (compare_bound_iff hfs (hk'.keyOk htypes) (hb.boundsOk htypes)).1]
    exact lt_of_le_of_lt (LexInterval.take_le_take _ hle)
  notAbove k k' hk hk' hle := by
    rw [compareLe_iff hfs (hk.keyOk htypes) (hk'.keyOk htypes)] at hle
    rw [(compare_bound_iff hfs (hk.keyOk htypes) (hb.boundsOk htypes)).2,
      (compare_bound_iff hfs (hk'.keyOk htypes) (hb.boundsOk htypes)).2]
    exact le_trans (LexInterval.take_le_take _ hle)
  infinite hinf k hk hzero := by
    obtain ⟨c, hc, hsigns⟩ := siCmpMultiKey_signs hfs (hk.keyOk htypes) (hb.boundsOk htypes)
    obtain rfl : 0 = c := Except.ok.inj (hzero.symm.trans hc)
    exact take_places_ne hfs (hk.keyOk htypes) hinf (hsigns.2.1 rfl)

/-- The keys of columns without floating point are totally preordered, and every bound cuts them. -/
theorem siCmpMultiKey_laws (htypes : NoFloats types) :
    OrderLaws types fs ∧ ∀ b, KeyBound types b → BoundLaws types fs b :=
  ⟨orderLaws hfs htypes, fun _ hb => boundLaws hfs htypes hb⟩

end Laws

/-- A STRING column and an INT32 column. -/
theorem siCmpMultiKey_laws_two :
    OrderLaws [.string, .int32] [siCmpString, siCmpInt] ∧
      ∀ b, KeyBound [.string, .int32] b → BoundLaws [.string, .int32] [siCmpString, siCmpInt] b :=
  siCmpMultiKey_laws (.cons rfl (.cons rfl .nil)) (by decide)

end Secondary
