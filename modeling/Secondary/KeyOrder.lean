import Mathlib.Data.List.Forall2
import Secondary.Key
import Secondary.Lib.Comparator

/-!
# KeyOrder — the linear order behind the comparators

`place v` puts every value into one linear order: -INF, then the values of a type in their own
order, then +INF, then NULL.  On values of one type every comparator has the sign of this order
(`cmpFunc_signs`), and so `SICmpMultiKey` has the sign of the lexicographic order of the places of
tuples (`siCmpMultiKey_signs`), also against a bound that is shorter than the tuple and has
infinite components.
-/

namespace Secondary

open Lib

/-! ## Places of values -/

/-- Case-folded bytes, up to the first NUL and including it. -/
def foldedBytes : List UInt8 → List Nat
  | [] => []
  | b :: bs => if b = 0 then [0] else (tolower b).toNat :: foldedBytes bs

abbrev Place : Type :=
  Nat ×ₗ (List Nat ×ₗ Int)

namespace SIValue

/-- -INF, values, +INF and NULL. -/
def rank : SIValue → Nat
  | negInf => 0
  | inf => 2
  | null => 3
  | _ => 1

/-- The place of a value among those of its type. -/
def placeInType : SIValue → List Nat ×ₗ Int
  | string s => toLex (foldedBytes s, (s.length : Int))
  | int32 i => toLex ([], i.toInt)
  | int64 i => toLex ([], i.toInt)
  | uint u => toLex ([], (u.toNat : Int))
  | bool b => toLex ([], b.toInt)
  | float f => toLex ([], (place32 f).getD 0)
  | double d => toLex ([], (place64 d).getD 0)
  | time t => toLex ([], t.toInt)
  | _ => toLex ([], 0)

def place (v : SIValue) : Place :=
  toLex (v.rank, v.placeInType)

end SIValue

/-! ## Well-typed values -/

/-- A value of type `t`, or NULL; it may be a NaN. -/
def OfType (t : SIType) (v : SIValue) : Prop :=
  v = .null ∨ v.type = t

instance (t : SIType) : DecidablePred (OfType t) := fun v =>
  inferInstanceAs (Decidable (v = .null ∨ v.type = t))

/-- What the comparator of a column of type `t` is for: NULL, an infinity, or a value of type `t`. -/
def SIValue.Comparable (t : SIType) (v : SIValue) : Prop :=
  v = .null ∨ v = .inf ∨ v = .negInf ∨ v.type = t

instance (t : SIType) : DecidablePred (SIValue.Comparable t) := fun v =>
  inferInstanceAs (Decidable (v = .null ∨ v = .inf ∨ v = .negInf ∨ v.type = t))

theorem OfType.comparable {t : SIType} {v : SIValue} (h : OfType t v) : v.Comparable t :=
  h.imp_right fun h => Or.inr (Or.inr h)

/-- What a column of type `t` may hold: a value of that type other than a NaN, or NULL.  The order of
the comparators is none for a NaN. -/
def ValueOk (t : SIType) (v : SIValue) : Prop :=
  v = .null ∨ (v.type = t ∧ v.NotNaN)

/-- What a constant compared with that column may be. -/
def BoundOk (t : SIType) (v : SIValue) : Prop :=
  ValueOk t v ∨ v = .inf ∨ v = .negInf

instance (t : SIType) : DecidablePred (ValueOk t) := fun v =>
  inferInstanceAs (Decidable (v = .null ∨ (v.type = t ∧ v.NotNaN)))

instance (t : SIType) : DecidablePred (BoundOk t) := fun v =>
  inferInstanceAs (Decidable (ValueOk t v ∨ v = .inf ∨ v = .negInf))

/-- A type that a column may have. -/
def ColumnType (t : SIType) : Prop :=
  t ≠ .null ∧ t ≠ .inf ∧ t ≠ .negInf

instance : DecidablePred ColumnType := fun t =>
  inferInstanceAs (Decidable (t ≠ .null ∧ t ≠ .inf ∧ t ≠ .negInf))

theorem rank_of_type {t : SIType} (ht : ColumnType t) {v : SIValue} (h : v.type = t) :
    v.rank = 1 ∧ v.isNull = false ∧ v.isInf = false ∧ v.isNegativeInf = false := by
  obtain ⟨hnull, hinf, hneg⟩ := ht
  subst h
  cases v <;> simp_all [SIValue.type, SIValue.rank, SIValue.isNull, SIValue.isInf,
    SIValue.isNegativeInf]

/-! ## Comparators -/

/-- Within one rank, the places in the type decide. -/
theorem signs_of_places {v w : SIValue} {c : Int} (hrank : v.rank = w.rank)
    (h : Signs c v.placeInType w.placeInType) : Signs c v.place w.place := by
  constructor
  · simp [SIValue.place, Prod.Lex.toLex_lt_toLex, hrank, h.1]
  · simp [SIValue.place, hrank, h.2]

theorem signs_of_rank_lt {v w : SIValue} (h : v.rank < w.rank) : Signs (-1) v.place w.place := by
  have hlt : v.place < w.place := by
    simp [SIValue.place, Prod.Lex.toLex_lt_toLex, h]
  simp [Signs, hlt, ne_of_lt hlt]

theorem signs_of_rank_gt {v w : SIValue} (h : w.rank < v.rank) : Signs 1 v.place w.place := by
  have hlt : w.place < v.place := by
    simp [SIValue.place, Prod.Lex.toLex_lt_toLex, h]
  simp [Signs, lt_asymm hlt, ne_of_gt hlt]

/-- NULL and INF are compared by rank; two values of the type, by `values`. -/
theorem cmpSpecial_signs {t : SIType} (ht : ColumnType t) {v w : SIValue} (hv : ValueOk t v)
    (hw : BoundOk t w) {values : Exec Int}
    (hvalues : v.type = t → w.type = t → v.NotNaN → w.NotNaN →
      ∃ c, values = .ok c ∧ Signs c v.placeInType w.placeInType) :
    ∃ c, cmpSpecial v w values = .ok c ∧ Signs c v.place w.place := by
  rcases hv with rfl | ⟨hvt, hvn⟩
  · -- NULL on the left is above everything but NULL.
    by_cases hnull : w = .null
    · subst hnull
      exact ⟨0, rfl, by simp [Signs]⟩
    · have hisNull : w.isNull = false := by
        cases w <;> simp_all [SIValue.isNull, SIValue.type]
      refine ⟨1, by simp [cmpSpecial, hisNull], signs_of_rank_gt ?_⟩
      cases w <;> simp_all [SIValue.rank]
  · obtain ⟨hvr, hvnull, hvinf, hvneg⟩ := rank_of_type ht hvt
    rcases hw with (rfl | ⟨hwt, hwn⟩) | rfl | rfl
    · refine ⟨-1, by simp [cmpSpecial, hvnull], signs_of_rank_lt ?_⟩
      rw [hvr]
      decide
    · obtain ⟨hwr, hwnull, hwinf, hwneg⟩ := rank_of_type ht hwt
      obtain ⟨c, hc, hsigns⟩ := hvalues hvt hwt hvn hwn
      refine ⟨c, ?_, signs_of_places (hvr.trans hwr.symm) hsigns⟩
      simp [cmpSpecial, hvnull, hwnull, hvinf, hwinf, hvneg, hwneg, hc]
    · refine ⟨-1, by simp [cmpSpecial, hvnull, hvinf], signs_of_rank_lt ?_⟩
      rw [hvr]
      decide
    · refine ⟨1, by simp [cmpSpecial, hvnull], signs_of_rank_gt ?_⟩
      rw [hvr]
      decide

theorem lex_int_lt {a b : Int} :
    (toLex (([] : List Nat), a) : List Nat ×ₗ Int) < toLex ([], b) ↔ a < b := by
  simp [Prod.Lex.toLex_lt_toLex]

/-- A member that is read from the values, and numbers that place the values and are ordered as `lt`
orders the members. -/
theorem genericCmp_signs {t : SIType} (ht : ColumnType t) {α : Type} {memb : SIValue → Exec α}
    {lt : α → α → Bool} (number : α → Int) (Number : α → Prop)
    (hread : ∀ v, v.type = t → v.NotNaN →
      ∃ a, memb v = .ok a ∧ Number a ∧ v.placeInType = toLex ([], number a))
    (hlt : ∀ a b, Number a → Number b → (lt a b = true ↔ number a < number b))
    {v w : SIValue} (hv : ValueOk t v) (hw : BoundOk t w) :
    ∃ c, genericCmp memb lt v w = .ok c ∧ Signs c v.place w.place := by
  refine cmpSpecial_signs ht hv hw ?_
  intro hvt hwt hvn hwn
  obtain ⟨a, ha, hna, hva⟩ := hread v hvt hvn
  obtain ⟨b, hb, hnb, hwb⟩ := hread w hwt hwn
  refine ⟨if lt a b then -1 else if lt b a then 1 else 0, by simp [ha, hb], ?_⟩
  rw [hva, hwb]
  apply signs_of_lt
  · rw [hlt a b hna hnb, lex_int_lt]
  · rw [hlt b a hnb hna, lex_int_lt]

/-- The places of numbers that are not NaN are compared as `<` compares them. -/
theorem placeLt_iff {a b : Option Int} (ha : a ≠ none) (hb : b ≠ none) :
    placeLt a b = true ↔ a.getD 0 < b.getD 0 := by
  cases a with
  | none => exact absurd rfl ha
  | some a =>
      cases b with
      | none => exact absurd rfl hb
      | some b => simp [placeLt]

/-! ### Strings -/

theorem tolower_eq_zero {b : UInt8} : tolower b = 0 ↔ b = 0 := by
  constructor
  · intro h
    unfold tolower at h
    split at h
    · rename_i hrange
      have hlow : 65 ≤ b.toNat := UInt8.le_iff_toNat_le.1 hrange.1
      have hhigh : b.toNat ≤ 90 := UInt8.le_iff_toNat_le.1 hrange.2
      have hzero := congrArg UInt8.toNat h
      rw [UInt8.toNat_add] at hzero
      have h32 : (32 : UInt8).toNat = 32 := rfl
      have h0 : (0 : UInt8).toNat = 0 := rfl
      omega
    · exact h
  · rintro rfl
    rfl

theorem foldedBytes_cons (b : UInt8) (bs : List UInt8) :
    ∃ rest, foldedBytes (b :: bs) = (tolower b).toNat :: rest := by
  by_cases hb : b = 0
  · exact ⟨[], by simp [foldedBytes, hb]; rfl⟩
  · exact ⟨foldedBytes bs, by simp [foldedBytes, hb]⟩

/-- The longer string wins where the bytes agree. -/
def withLengths (cmp : Int) (n m : Nat) : Int :=
  if cmp = 0 ∧ n ≠ m then (if n > m then 1 else -1) else cmp

theorem withLengths_of_ne {cmp : Int} (h : cmp ≠ 0) (n m : Nat) : withLengths cmp n m = cmp := by
  simp [withLengths, h]

theorem withLengths_signs (xs : List Nat) (n m : Nat) :
    Signs (withLengths 0 n m) (toLex (xs, (n : Int))) (toLex (xs, (m : Int))) := by
  rcases lt_trichotomy n m with h | h | h
  · have hgt : ¬ m < n := by omega
    have hne : ¬ (n : Int) = m := by omega
    simp [Signs, withLengths, Prod.Lex.toLex_lt_toLex, h, hgt, ne_of_lt h, hne]
  · simp [Signs, withLengths, h]
  · have hlt : ¬ n < m := by omega
    have hne : ¬ (n : Int) = m := by omega
    simp [Signs, withLengths, Prod.Lex.toLex_lt_toLex, h, hlt, ne_of_gt h, hne]

theorem signs_of_bytes_lt {xs ys : List Nat} {n m : Int} (h : xs < ys) :
    Signs (-1) (toLex (xs, n)) (toLex (ys, m)) := by
  simp [Signs, Prod.Lex.toLex_lt_toLex, h, ne_of_lt h]

/-- `strncasecmp` on the common length, then the lengths: the order of the folded bytes up to the
first NUL, then the lengths.  `n` and `m` bytes stand in front of the strings. -/
theorem strncasecmp_signs :
    ∀ (as bs : List UInt8) (n : Nat),
      Signs
        (withLengths (strncasecmp (min bs.length as.length) as bs) (n + as.length)
          (n + bs.length))
        (toLex (foldedBytes as, ((n + as.length : Nat) : Int)))
        (toLex (foldedBytes bs, ((n + bs.length : Nat) : Int)))
  | [], [], n => by
      have h := withLengths_signs [] n n
      simpa [strncasecmp, foldedBytes] using h
  | [], b :: bs, n => by
      obtain ⟨rest, hrest⟩ := foldedBytes_cons b bs
      -- No byte is compared, and the lengths decide as the folded bytes do.
      have hlt : foldedBytes [] < foldedBytes (b :: bs) := by
        rw [hrest]
        exact List.nil_lt_cons _ _
      have hval : withLengths
          (strncasecmp (min (b :: bs).length ([] : List UInt8).length) [] (b :: bs))
          (n + ([] : List UInt8).length) (n + (b :: bs).length) = -1 := by
        simp [strncasecmp, withLengths]
      rw [hval]
      exact signs_of_bytes_lt hlt
  | a :: as, [], n => by
      obtain ⟨rest, hrest⟩ := foldedBytes_cons a as
      have hlt : foldedBytes [] < foldedBytes (a :: as) := by
        rw [hrest]
        exact List.nil_lt_cons _ _
      have hval : withLengths
          (strncasecmp (min ([] : List UInt8).length (a :: as).length) (a :: as) [])
          (n + (a :: as).length) (n + ([] : List UInt8).length) = 1 := by
        simp [strncasecmp, withLengths]
      rw [hval]
      simp [Signs, Prod.Lex.toLex_lt_toLex, lt_asymm hlt, ne_of_gt hlt]
  | a :: as, b :: bs, n => by
      have hmin : min (b :: bs).length (a :: as).length = min bs.length as.length + 1 := by
        simp [Nat.add_min_add_right]
      rw [hmin, strncasecmp]
      by_cases hab : tolower a = tolower b
      · by_cases ha : a = 0
        · -- Both strings have their first NUL here: the lengths decide.
          subst ha
          obtain rfl : b = 0 := tolower_eq_zero.1 hab.symm
          have h := withLengths_signs [0] (n + (0 :: as : List UInt8).length)
            (n + (0 :: bs : List UInt8).length)
          simpa [foldedBytes] using h
        · -- Equal bytes are passed over: both lengths count them.
          have hb : b ≠ 0 := fun hb => ha (tolower_eq_zero.1 (hab.trans (tolower_eq_zero.2 hb)))
          have ih := strncasecmp_signs as bs (n + 1)
          have hn : ∀ k, n + 1 + k = n + (k + 1) := fun k => by omega
          simp only [hn] at ih
          simp only [hab, ne_eq, not_true_eq_false, if_false, ha, List.length_cons]
          constructor
          · rw [ih.1]
            simp [Prod.Lex.toLex_lt_toLex, foldedBytes, ha, hb, hab]
          · rw [ih.2]
            simp [foldedBytes, ha, hb, hab]
      · -- The first bytes that differ decide.
        obtain ⟨resta, hresta⟩ := foldedBytes_cons a as
        obtain ⟨restb, hrestb⟩ := foldedBytes_cons b bs
        have hne : (tolower a).toNat ≠ (tolower b).toNat := fun h => hab (UInt8.toNat_inj.1 h)
        have hdiff : ((tolower a).toNat : Int) - (tolower b).toNat ≠ 0 := by omega
        rw [if_pos hab, withLengths_of_ne hdiff, hresta, hrestb]
        constructor
        · have hneg : ((tolower a).toNat : Int) - (tolower b).toNat < 0 ↔
              (tolower a).toNat < (tolower b).toNat := by omega
          rw [hneg]
          simp [Prod.Lex.toLex_lt_toLex, List.cons_lt_cons_iff, hne]
        · simp [hne, hdiff]

/-- Every comparator begins with NULL and the infinities. -/
theorem cmpFunc_special {t : SIType} {f : SIKeyCmpFunc} (hf : cmpFuncOf t = .ok f) :
    ∃ values : SIValue → SIValue → Exec Int, ∀ v w, f v w = cmpSpecial v w (values v w) := by
  cases t with
  | null => cases hf
  | inf => cases hf
  | negInf => cases hf
  | _ =>
      cases hf
      exact ⟨_, fun _ _ => rfl⟩

/-- NULL and the infinities are handled before the values are read. -/
theorem cmpSpecial_total {t : SIType} {v w : SIValue} (hv : v.Comparable t) (hw : w.Comparable t) {values : Exec Int}
    (h : v.type = t → w.type = t → ∃ c, values = .ok c) : ∃ c, cmpSpecial v w values = .ok c := by
  rcases hv with rfl | rfl | rfl | hv
  · exact ⟨_, rfl⟩
  · cases w <;> exact ⟨_, rfl⟩
  · cases w <;> exact ⟨_, rfl⟩
  · rcases hw with rfl | rfl | rfl | hw
    · cases v <;> exact ⟨_, rfl⟩
    · cases v <;> exact ⟨_, rfl⟩
    · cases v <;> exact ⟨_, rfl⟩
    · obtain ⟨c, rfl⟩ := h hv hw
      unfold cmpSpecial
      split_ifs <;> exact ⟨_, rfl⟩

/-- A comparator has a result on what it is for. -/
theorem cmpFunc_total {t : SIType} {f : SIKeyCmpFunc} (hf : cmpFuncOf t = .ok f) {v w : SIValue}
    (hv : v.Comparable t) (hw : w.Comparable t) : ∃ c, f v w = .ok c := by
  cases t with
  | null => cases hf
  | inf => cases hf
  | negInf => cases hf
  | string =>
      cases hf
      refine cmpSpecial_total hv hw fun hv hw => ?_
      cases v <;> cases hv
      cases w <;> cases hw
      simp only [SIValue.stringval, ok_bind]
      split_ifs <;> exact ⟨_, rfl⟩
  | _ =>
      cases hf
      refine cmpSpecial_total hv hw fun hv hw => ?_
      cases v <;> cases hv
      cases w <;> cases hw
      exact ⟨_, rfl⟩

/-- The comparator of a column has the sign of the places. -/
theorem cmpFunc_signs {t : SIType} {f : SIKeyCmpFunc} (hf : cmpFuncOf t = .ok f) {v w : SIValue}
    (hv : ValueOk t v) (hw : BoundOk t w) : ∃ c, f v w = .ok c ∧ Signs c v.place w.place := by
  cases t with
  | null => cases hf
  | inf => cases hf
  | negInf => cases hf
  | string =>
      -- Strings are compared byte by byte, and then by their lengths.
      cases hf
      refine cmpSpecial_signs (by decide) hv hw ?_
      intro hv hw _ _
      cases v with
      | string s =>
          cases w with
          | string s' =>
              have h := strncasecmp_signs s s' 0
              simp only [Nat.zero_add] at h
              refine ⟨_, ?_, h⟩
              simp only [SIValue.stringval, ok_bind, withLengths]
              split <;> rfl
          | _ => cases hw
      | _ => cases hv
  | int32 =>
      cases hf
      refine genericCmp_signs (by decide) Int32.toInt (fun _ => True) ?_ ?_ hv hw
      · intro v hv _
        cases v with
        | int32 i => exact ⟨i, rfl, trivial, rfl⟩
        | _ => cases hv
      · intro a b _ _
        rw [decide_eq_true_eq, Int32.lt_iff_toInt_lt]
  | int64 =>
      cases hf
      refine genericCmp_signs (by decide) Int64.toInt (fun _ => True) ?_ ?_ hv hw
      · intro v hv _
        cases v with
        | int64 i => exact ⟨i, rfl, trivial, rfl⟩
        | _ => cases hv
      · intro a b _ _
        rw [decide_eq_true_eq, Int64.lt_iff_toInt_lt]
  | uint =>
      cases hf
      refine genericCmp_signs (by decide) (fun u => (u.toNat : Int)) (fun _ => True) ?_ ?_ hv hw
      · intro v hv _
        cases v with
        | uint u => exact ⟨u, rfl, trivial, rfl⟩
        | _ => cases hv
      · intro a b _ _
        rw [decide_eq_true_eq, UInt64.lt_iff_toNat_lt, Int.ofNat_lt]
  | bool =>
      cases hf
      refine genericCmp_signs (by decide) Int32.toInt (fun _ => True) ?_ ?_ hv hw
      · intro v hv _
        cases v with
        | bool b => exact ⟨b, rfl, trivial, rfl⟩
        | _ => cases hv
      · intro a b _ _
        rw [decide_eq_true_eq, Int32.lt_iff_toInt_lt]
  | float =>
      -- A value of a column is not NaN, so its number is its place.
      cases hf
      refine genericCmp_signs (by decide) (fun f => (place32 f).getD 0) (fun f => place32 f ≠ none) ?_
        (fun _ _ => placeLt_iff) hv hw
      intro v hv hvn
      cases v with
      | float f => exact ⟨f, rfl, hvn, rfl⟩
      | _ => cases hv
  | double =>
      cases hf
      refine genericCmp_signs (by decide) (fun f => (place64 f).getD 0) (fun f => place64 f ≠ none) ?_
        (fun _ _ => placeLt_iff) hv hw
      intro v hv hvn
      cases v with
      | double d => exact ⟨d, rfl, hvn, rfl⟩
      | _ => cases hv
  | time =>
      cases hf
      refine genericCmp_signs (by decide) Int64.toInt (fun _ => True) ?_ ?_ hv hw
      · intro v hv _
        cases v with
        | time t => exact ⟨t, rfl, trivial, rfl⟩
        | _ => cases hv
      · intro a b _ _
        rw [decide_eq_true_eq, Int64.lt_iff_toInt_lt]

/-! ## Tuples -/

/-- `fs` are the comparators of columns of the given types. -/
def CmpFuncsOf (types : List SIType) (fs : List SIKeyCmpFunc) : Prop :=
  List.Forall₂ (fun t f => cmpFuncOf t = .ok f) types fs

/-- A full-length tuple of well-typed values. -/
def KeyOk (types : List SIType) (k : SIMultiKey) : Prop :=
  List.Forall₂ ValueOk types k

instance (types : List SIType) : DecidablePred (KeyOk types) := fun k =>
  inferInstanceAs (Decidable (List.Forall₂ ValueOk types k))

/-- A bound on the first columns. -/
def BoundsOk : List SIType → SIMultiKey → Prop
  | _, [] => True
  | [], _ :: _ => False
  | t :: ts, v :: vs => BoundOk t v ∧ BoundsOk ts vs

def places (k : SIMultiKey) : List Place :=
  k.map SIValue.place

@[simp] theorem places_nil : places [] = [] := rfl

@[simp] theorem places_cons (v : SIValue) (k : SIMultiKey) :
    places (v :: k) = v.place :: places k := rfl

@[simp] theorem length_places (k : SIMultiKey) : (places k).length = k.length := by
  simp [places]

theorem KeyOk.length_eq {types : List SIType} {k : SIMultiKey} (h : KeyOk types k) :
    k.length = types.length :=
  (List.Forall₂.length_eq h).symm

theorem KeyOk.boundsOk {types : List SIType} {k : SIMultiKey} (h : KeyOk types k) :
    BoundsOk types k := by
  induction h with
  | nil => trivial
  | cons hv _ ih => exact ⟨Or.inl hv, ih⟩

/-- Against a bound, `SICmpMultiKey` compares the places of the columns that the bound has. -/
theorem siCmpMultiKey_signs {types : List SIType} {fs : List SIKeyCmpFunc}
    (hfs : CmpFuncsOf types fs) {k b : SIMultiKey} (hk : KeyOk types k) (hb : BoundsOk types b) :
    ∃ c, siCmpMultiKey fs k b = .ok c ∧ Signs c ((places k).take b.length) (places b) := by
  induction hfs generalizing k b with
  | nil =>
      cases hk
      cases b with
      | nil => exact ⟨0, rfl, by simp [Signs]⟩
      | cons w b => cases hb
  | cons hf _ ih =>
      obtain _ | ⟨hv, hk⟩ := hk
      cases b with
      | nil => exact ⟨0, rfl, by simp [Signs]⟩
      | cons w b =>
          obtain ⟨c, hc, hsigns⟩ := cmpFunc_signs hf hv hb.1
          obtain ⟨d, hd, hrest⟩ := ih hk hb.2
          refine ⟨if c ≠ 0 then c else d, ?_, by simpa using hsigns.cons hrest⟩
          by_cases hzero : c = 0
          · simp [siCmpMultiKey, hc, hzero, hd]
          · simp [siCmpMultiKey, hc, hzero]

/-- Full-length tuples are compared by their places. -/
theorem siCmpMultiKey_signs_full {types : List SIType} {fs : List SIKeyCmpFunc}
    (hfs : CmpFuncsOf types fs) {k k' : SIMultiKey} (hk : KeyOk types k) (hk' : KeyOk types k') :
    ∃ c, siCmpMultiKey fs k k' = .ok c ∧ Signs c (places k) (places k') := by
  obtain ⟨c, hc, hsigns⟩ := siCmpMultiKey_signs hfs hk hk'.boundsOk
  have htake : (places k).take k'.length = places k := by
    rw [List.take_of_length_le]
    simp [hk.length_eq, hk'.length_eq]
  rw [htake] at hsigns
  exact ⟨c, hc, hsigns⟩

/-- What the comparators call equal. -/
def CompareEqual (fs : List SIKeyCmpFunc) (k k' : SIMultiKey) : Prop :=
  siCmpMultiKey fs k k' = .ok 0

theorem compareEqual_iff {types : List SIType} {fs : List SIKeyCmpFunc}
    (hfs : CmpFuncsOf types fs) {k k' : SIMultiKey} (hk : KeyOk types k) (hk' : KeyOk types k') :
    CompareEqual fs k k' ↔ places k = places k' := by
  obtain ⟨c, hc, hsigns⟩ := siCmpMultiKey_signs_full hfs hk hk'
  rw [CompareEqual, hc, Except.ok.injEq, hsigns.2]

theorem compareEqual_congr {types : List SIType} {fs : List SIKeyCmpFunc}
    (hfs : CmpFuncsOf types fs) {k k' vals : SIMultiKey} (hk : KeyOk types k)
    (hk' : KeyOk types k') (hvals : KeyOk types vals) (h : CompareEqual fs k k') :
    CompareEqual fs k vals ↔ CompareEqual fs k' vals := by
  rw [compareEqual_iff hfs hk hvals, compareEqual_iff hfs hk' hvals,
    (compareEqual_iff hfs hk hk').1 h]

/-- `k` is not after `k'`. -/
def CompareLe (fs : List SIKeyCmpFunc) (k k' : SIMultiKey) : Prop :=
  ∃ c, siCmpMultiKey fs k k' = .ok c ∧ c ≤ 0

theorem compareLe_iff {types : List SIType} {fs : List SIKeyCmpFunc} (hfs : CmpFuncsOf types fs)
    {k k' : SIMultiKey} (hk : KeyOk types k) (hk' : KeyOk types k') :
    CompareLe fs k k' ↔ places k ≤ places k' := by
  obtain ⟨c, hc, hsigns⟩ := siCmpMultiKey_signs_full hfs hk hk'
  rw [← hsigns.le_zero_iff]
  simp [CompareLe, hc]

/-- `k` is before `k'`. -/
def CompareLt (fs : List SIKeyCmpFunc) (k k' : SIMultiKey) : Prop :=
  ∃ c, siCmpMultiKey fs k k' = .ok c ∧ c < 0

theorem compareLt_iff {types : List SIType} {fs : List SIKeyCmpFunc} (hfs : CmpFuncsOf types fs)
    {k k' : SIMultiKey} (hk : KeyOk types k) (hk' : KeyOk types k') :
    CompareLt fs k k' ↔ places k < places k' := by
  obtain ⟨c, hc, hsigns⟩ := siCmpMultiKey_signs_full hfs hk hk'
  rw [← hsigns.1]
  simp [CompareLt, hc]

theorem CompareEqual.refl {types : List SIType} {fs : List SIKeyCmpFunc}
    (hfs : CmpFuncsOf types fs) {k : SIMultiKey} (hk : KeyOk types k) : CompareEqual fs k k :=
  (compareEqual_iff hfs hk hk).2 rfl

end Secondary
