import Mathlib.Data.List.Perm.Subperm
import Secondary.Lib.Comparator

/-!
# Bucket — sorted association lists with several values per key

A list of buckets, sorted by key class, is the plain description of an ordered multi-map: every
bucket has a key, the values stored under keys of its class, and a `tag` that names the bucket
itself.  `insert` and `delete` are the two updates, driven by a comparison `c` of the bucket keys
against the sought key.  Deleting a value moves the last one into its place.
-/

namespace Secondary
namespace Lib

variable {κ ν : Type}

/-! ## Value arrays -/

/-- Append `v` unless a value that is the `same` is already there. -/
def appendNew (same : ν → ν → Bool) (vs : List ν) (v : ν) : List ν :=
  if vs.any (fun x => same x v) then vs else vs ++ [v]

/-- Remove the first value on which `p` holds by moving the last value into its place. -/
def swapRemove (p : ν → Bool) : List ν → List ν
  | [] => []
  | v :: vs =>
      if p v then
        match vs.getLast? with
        | none => []
        | some l => l :: vs.dropLast
      else
        v :: swapRemove p vs

/-- The first value stays in its place if it is not the one that is removed. -/
theorem head?_swapRemove {p : ν → Bool} {v : ν} {vs : List ν} (h : p v = false) :
    (swapRemove p (v :: vs)).head? = some v := by
  simp [swapRemove, h]

theorem swapRemove_head_perm (vs : List ν) :
    (match vs.getLast? with
      | none => []
      | some l => l :: vs.dropLast).Perm vs := by
  cases hl : vs.getLast? with
  | none => simp [List.getLast?_eq_none_iff.1 hl]
  | some l =>
      have hvs : vs = vs.dropLast ++ [l] := List.dropLast_append_getLast? l hl |>.symm
      have hperm : (l :: vs.dropLast).Perm (vs.dropLast ++ [l]) :=
        (List.perm_append_singleton l vs.dropLast).symm
      simpa [← hvs] using hperm

/-- Removing takes away one value on which `p` holds, or nothing when there is none. -/
theorem swapRemove_perm (p : ν → Bool) :
    ∀ vs : List ν,
      (swapRemove p vs = vs ∧ ∀ v ∈ vs, p v = false) ∨
        ∃ v ∈ vs, p v = true ∧ (v :: swapRemove p vs).Perm vs
  | [] => Or.inl ⟨rfl, by simp⟩
  | v :: vs => by
      cases hv : p v with
      | true =>
          refine Or.inr ⟨v, by simp, hv, ?_⟩
          simpa [swapRemove, hv] using (swapRemove_head_perm vs).cons v
      | false =>
          rcases swapRemove_perm p vs with ⟨hsame, hall⟩ | ⟨w, hw, hpw, hperm⟩
          · refine Or.inl ⟨by simp [swapRemove, hv, hsame], ?_⟩
            intro x hx
            rcases List.mem_cons.1 hx with rfl | hx
            · exact hv
            · exact hall x hx
          · refine Or.inr ⟨w, by simp [hw], hpw, ?_⟩
            have hswap : (w :: v :: swapRemove p vs).Perm (v :: w :: swapRemove p vs) :=
              List.Perm.swap v w _
            simpa [swapRemove, hv] using hswap.trans (hperm.cons v)

theorem swapRemove_subperm (p : ν → Bool) (vs : List ν) : (swapRemove p vs).Subperm vs := by
  rcases swapRemove_perm p vs with ⟨hsame, _⟩ | ⟨v, _, _, hperm⟩
  · rw [hsame]
  · exact (List.sublist_cons_self v _).subperm.trans hperm.subperm

/-- Where `p` picks out the single value `v`, removing is erasing, up to order. -/
theorem swapRemove_perm_of_mem {p : ν → Bool} {vs : List ν} {v : ν} (hv : v ∈ vs)
    (hp : ∀ x ∈ vs, p x = true ↔ x = v) : (v :: swapRemove p vs).Perm vs := by
  rcases swapRemove_perm p vs with ⟨_, hall⟩ | ⟨w, hw, hpw, hperm⟩
  · have := hall v hv
    simp [(hp v hv).2 rfl] at this
  · rwa [(hp w hw).1 hpw] at hperm

/-! ## Buckets -/

structure Bucket (κ ν : Type) where
  tag : Nat
  key : κ
  vals : List ν

namespace Bucket

/-- Put `v` under the key that `c` compares against; `mk` is the bucket made for a new class. -/
def insert (c : κ → Int) (same : ν → ν → Bool) (mk : Bucket κ ν) (v : ν) :
    List (Bucket κ ν) → List (Bucket κ ν)
  | [] => [mk]
  | b :: bs =>
      if c b.key < 0 then
        b :: insert c same mk v bs
      else if c b.key = 0 then
        { b with vals := appendNew same b.vals v } :: bs
      else
        mk :: b :: bs

/-- Replace the values of the sought class by `rest` of them, dropping the bucket when none stay. -/
def delete (c : κ → Int) (rest : List ν → List ν) : List (Bucket κ ν) → List (Bucket κ ν)
  | [] => []
  | b :: bs =>
      if c b.key < 0 then
        b :: delete c rest bs
      else if c b.key = 0 then
        if rest b.vals = [] then bs else { b with vals := rest b.vals } :: bs
      else
        b :: bs

/-- The buckets stand in strictly increasing key order. -/
def Sorted (cmp : κ → κ → Int) (bs : List (Bucket κ ν)) : Prop :=
  bs.Pairwise fun a b => cmp a.key b.key < 0

/-- All values of all buckets, in order. -/
def allVals (bs : List (Bucket κ ν)) : List ν :=
  bs.flatMap Bucket.vals

@[simp] theorem allVals_nil : allVals ([] : List (Bucket κ ν)) = [] := rfl

@[simp] theorem allVals_cons (b : Bucket κ ν) (bs : List (Bucket κ ν)) :
    allVals (b :: bs) = b.vals ++ allVals bs := by
  simp [allVals]

@[simp] theorem allVals_append (as bs : List (Bucket κ ν)) :
    allVals (as ++ bs) = allVals as ++ allVals bs := by
  simp [allVals]

theorem mem_allVals {bs : List (Bucket κ ν)} {v : ν} :
    v ∈ allVals bs ↔ ∃ b ∈ bs, v ∈ b.vals := by
  simp [allVals]

section Updates

variable {c : κ → Int} {same : ν → ν → Bool} {mk : Bucket κ ν} {v : ν} {rest : List ν → List ν}

theorem insert_cons_of_lt {b : Bucket κ ν} {bs : List (Bucket κ ν)} (h : c b.key < 0) :
    insert c same mk v (b :: bs) = b :: insert c same mk v bs := by
  simp [insert, h]

theorem insert_cons_of_eq {b : Bucket κ ν} {bs : List (Bucket κ ν)} (h : c b.key = 0) :
    insert c same mk v (b :: bs) = { b with vals := appendNew same b.vals v } :: bs := by
  simp [insert, h]

theorem insert_cons_of_gt {b : Bucket κ ν} {bs : List (Bucket κ ν)} (h : 0 < c b.key) :
    insert c same mk v (b :: bs) = mk :: b :: bs := by
  have hlt : ¬ c b.key < 0 := Int.not_lt.2 (Int.le_of_lt h)
  have hne : c b.key ≠ 0 := (Int.ne_of_lt h).symm
  simp [insert, hlt, hne]

theorem delete_cons_of_lt {b : Bucket κ ν} {bs : List (Bucket κ ν)} (h : c b.key < 0) :
    delete c rest (b :: bs) = b :: delete c rest bs := by
  simp [delete, h]

theorem delete_cons_of_eq {b : Bucket κ ν} {bs : List (Bucket κ ν)} (h : c b.key = 0) :
    delete c rest (b :: bs) =
      if rest b.vals = [] then bs else { b with vals := rest b.vals } :: bs := by
  simp [delete, h]

theorem delete_cons_of_gt {b : Bucket κ ν} {bs : List (Bucket κ ν)} (h : 0 < c b.key) :
    delete c rest (b :: bs) = b :: bs := by
  have hlt : ¬ c b.key < 0 := Int.not_lt.2 (Int.le_of_lt h)
  have hne : c b.key ≠ 0 := (Int.ne_of_lt h).symm
  simp [delete, hlt, hne]

theorem insert_append {as : List (Bucket κ ν)} (has : ∀ a ∈ as, c a.key < 0)
    (bs : List (Bucket κ ν)) : insert c same mk v (as ++ bs) = as ++ insert c same mk v bs := by
  induction as with
  | nil => rfl
  | cons a as ih =>
      rw [List.cons_append, insert_cons_of_lt (has a (by simp)),
        ih fun x hx => has x (by simp [hx]), List.cons_append]

theorem delete_append {as : List (Bucket κ ν)} (has : ∀ a ∈ as, c a.key < 0)
    (bs : List (Bucket κ ν)) : delete c rest (as ++ bs) = as ++ delete c rest bs := by
  induction as with
  | nil => rfl
  | cons a as ih =>
      rw [List.cons_append, delete_cons_of_lt (has a (by simp)),
        ih fun x hx => has x (by simp [hx]), List.cons_append]

/-- What a bucket is after an insertion. -/
theorem mem_insert {bs : List (Bucket κ ν)} {b : Bucket κ ν} (hb : b ∈ insert c same mk v bs) :
    b = mk ∨ b ∈ bs ∨ ∃ d ∈ bs, c d.key = 0 ∧ b = { d with vals := appendNew same d.vals v } := by
  induction bs with
  | nil => exact Or.inl (by simpa [insert] using hb)
  | cons d bs ih =>
      rcases Int.lt_trichotomy (c d.key) 0 with hlt | heq | hgt
      · rw [insert_cons_of_lt hlt] at hb
        rcases List.mem_cons.1 hb with rfl | hb
        · exact Or.inr (Or.inl (by simp))
        · rcases ih hb with rfl | hb | ⟨e, he, hce, rfl⟩
          · exact Or.inl rfl
          · exact Or.inr (Or.inl (by simp [hb]))
          · exact Or.inr (Or.inr ⟨e, by simp [he], hce, rfl⟩)
      · rw [insert_cons_of_eq heq] at hb
        rcases List.mem_cons.1 hb with rfl | hb
        · exact Or.inr (Or.inr ⟨d, by simp, heq, rfl⟩)
        · exact Or.inr (Or.inl (by simp [hb]))
      · rw [insert_cons_of_gt hgt] at hb
        rcases List.mem_cons.1 hb with rfl | hb
        · exact Or.inl rfl
        · exact Or.inr (Or.inl hb)

/-- What a bucket is after a deletion. -/
theorem mem_delete {bs : List (Bucket κ ν)} {b : Bucket κ ν} (hb : b ∈ delete c rest bs) :
    b ∈ bs ∨ ∃ d ∈ bs, c d.key = 0 ∧ rest d.vals ≠ [] ∧ b = { d with vals := rest d.vals } := by
  induction bs with
  | nil => simp [delete] at hb
  | cons d bs ih =>
      rcases Int.lt_trichotomy (c d.key) 0 with hlt | heq | hgt
      · rw [delete_cons_of_lt hlt] at hb
        rcases List.mem_cons.1 hb with rfl | hb
        · exact Or.inl (by simp)
        · rcases ih hb with hb | ⟨e, he, hce, hne, rfl⟩
          · exact Or.inl (by simp [hb])
          · exact Or.inr ⟨e, by simp [he], hce, hne, rfl⟩
      · rw [delete_cons_of_eq heq] at hb
        split at hb
        · exact Or.inl (by simp [hb])
        · rename_i hne
          rcases List.mem_cons.1 hb with rfl | hb
          · exact Or.inr ⟨d, by simp, heq, hne, rfl⟩
          · exact Or.inl (by simp [hb])
      · rw [delete_cons_of_gt hgt] at hb
        exact Or.inl hb

/-- A value that is not there yet is added once. -/
theorem insert_allVals_perm (hmk : mk.vals = [v]) {bs : List (Bucket κ ν)}
    (hnew : ∀ b ∈ bs, c b.key = 0 → b.vals.any (fun x => same x v) = false) :
    (allVals (insert c same mk v bs)).Perm (v :: allVals bs) := by
  induction bs with
  | nil => simp [insert, hmk]
  | cons d bs ih =>
      have ih' := ih fun b hb => hnew b (by simp [hb])
      rcases Int.lt_trichotomy (c d.key) 0 with hlt | heq | hgt
      · rw [insert_cons_of_lt hlt, allVals_cons, allVals_cons]
        exact (ih'.append_left d.vals).trans List.perm_middle
      · have happend : appendNew same d.vals v = d.vals ++ [v] := by
          simp [appendNew, hnew d (by simp) heq]
        rw [insert_cons_of_eq heq, allVals_cons, allVals_cons, happend, List.append_assoc]
        exact List.perm_middle
      · rw [insert_cons_of_gt hgt, allVals_cons, hmk]
        simp

/-- The buckets after a deletion at a known place. -/
theorem mem_delete_split {as cs : List (Bucket κ ν)} {b d : Bucket κ ν}
    (hbelow : ∀ a ∈ as, c a.key < 0) (hhit : c b.key = 0)
    (hd : d ∈ delete c rest (as ++ b :: cs)) :
    (d ∈ as ∨ d ∈ cs) ∨ (rest b.vals ≠ [] ∧ d = { b with vals := rest b.vals }) := by
  rw [delete_append hbelow, delete_cons_of_eq hhit] at hd
  rcases List.mem_append.1 hd with hd | hd
  · exact Or.inl (Or.inl hd)
  · split at hd
    · exact Or.inl (Or.inr hd)
    · rename_i hne
      rcases List.mem_cons.1 hd with rfl | hd
      · exact Or.inr ⟨hne, rfl⟩
      · exact Or.inl (Or.inr hd)

/-- Removing one value of the sought class removes it from the values of the list. -/
theorem delete_allVals_perm {as cs : List (Bucket κ ν)} {b : Bucket κ ν}
    (hbelow : ∀ a ∈ as, c a.key < 0) (hhit : c b.key = 0) (hrest : (v :: rest b.vals).Perm b.vals) :
    (v :: allVals (delete c rest (as ++ b :: cs))).Perm (allVals (as ++ b :: cs)) := by
  rw [delete_append hbelow, delete_cons_of_eq hhit]
  have hvals : (v :: (rest b.vals ++ allVals cs)).Perm (b.vals ++ allVals cs) :=
    hrest.append_right (allVals cs)
  have hmoved : (v :: (allVals as ++ (rest b.vals ++ allVals cs))).Perm
      (allVals as ++ (b.vals ++ allVals cs)) :=
    List.perm_middle.symm.trans (hvals.append_left (allVals as))
  split
  · rename_i hnil
    simpa [hnil] using hmoved
  · simpa using hmoved

/-- Deleting drops a key at most. -/
theorem delete_keys_sublist (bs : List (Bucket κ ν)) :
    ((delete c rest bs).map Bucket.key).Sublist (bs.map Bucket.key) := by
  induction bs with
  | nil => simp [delete]
  | cons d bs ih =>
      rcases Int.lt_trichotomy (c d.key) 0 with hlt | heq | hgt
      · rw [delete_cons_of_lt hlt]
        simpa using ih
      · rw [delete_cons_of_eq heq]
        split <;> simp
      · rw [delete_cons_of_gt hgt]

end Updates

/-- Where the sought key stands in a sorted list: below `as`, and equal to or below the rest. -/
inductive Position (c : κ → Int) (bs : List (Bucket κ ν)) : Prop
  /-- The class of the sought key has the bucket `b`. -/
  | found (as : List (Bucket κ ν)) (b : Bucket κ ν) (cs : List (Bucket κ ν))
      (eq : bs = as ++ b :: cs) (below : ∀ a ∈ as, c a.key < 0) (hit : c b.key = 0)
      (above : ∀ a ∈ cs, 0 < c a.key) : Position c bs
  /-- No bucket has the class of the sought key. -/
  | absent (as cs : List (Bucket κ ν)) (eq : bs = as ++ cs) (below : ∀ a ∈ as, c a.key < 0)
      (above : ∀ a ∈ cs, 0 < c a.key) : Position c bs

section Sorted

variable {D : κ → Prop} {cmp : κ → κ → Int} {k : κ} {bs : List (Bucket κ ν)}

/-- A sorted list of buckets has a place for every key of the domain. -/
theorem position (h : PreorderCmp D cmp) (hs : Sorted cmp bs) (hD : ∀ b ∈ bs, D b.key)
    (hk : D k) : Position (fun x => cmp x k) bs := by
  induction bs with
  | nil => exact .absent [] [] rfl (by simp) (by simp)
  | cons b bs ih =>
      have hb : D b.key := hD b (by simp)
      obtain ⟨hhead, htail⟩ := List.pairwise_cons.1 hs
      have hDtail : ∀ x ∈ bs, D x.key := fun x hx => hD x (by simp [hx])
      by_cases hlt : cmp b.key k < 0
      · -- `b` is below the sought key, so the position is the one in the rest.
        rcases ih htail hDtail with ⟨as, d, cs, rfl, hbelow, hit, habove⟩ | ⟨as, cs, rfl, hbelow, habove⟩
        · refine .found (b :: as) d cs rfl ?_ hit habove
          intro a ha
          rcases List.mem_cons.1 ha with rfl | ha
          · exact hlt
          · exact hbelow a ha
        · refine .absent (b :: as) cs rfl ?_ habove
          intro a ha
          rcases List.mem_cons.1 ha with rfl | ha
          · exact hlt
          · exact hbelow a ha
      · -- Everything after `b` is strictly above `b`, hence above the sought key.
        have habove : ∀ a ∈ bs, 0 < cmp a.key k := by
          intro a ha
          have hkb : cmp k b.key ≤ 0 := by
            have := h.swap hb hk
            have := h.swap hk hb
            omega
          have hka : cmp k a.key < 0 := h.lt_trans' hk hb (hDtail a ha) hkb (hhead a ha)
          have := h.swap hk (hDtail a ha)
          omega
        by_cases heq : cmp b.key k = 0
        · exact .found [] b bs rfl (by simp) heq habove
        · refine .absent [] (b :: bs) rfl (by simp) ?_
          intro a ha
          rcases List.mem_cons.1 ha with rfl | ha
          · show 0 < cmp a.key k
            omega
          · exact habove a ha

theorem sorted_append {as cs : List (Bucket κ ν)} :
    Sorted cmp (as ++ cs) ↔
      Sorted cmp as ∧ Sorted cmp cs ∧ ∀ a ∈ as, ∀ b ∈ cs, cmp a.key b.key < 0 :=
  List.pairwise_append

theorem sorted_cons {b : Bucket κ ν} {cs : List (Bucket κ ν)} :
    Sorted cmp (b :: cs) ↔ (∀ a ∈ cs, cmp b.key a.key < 0) ∧ Sorted cmp cs :=
  List.pairwise_cons

/-- Sortedness reads the keys alone. -/
theorem Sorted.of_keys {bs' : List (Bucket κ ν)} (hs : Sorted cmp bs)
    (hkeys : bs'.map Bucket.key = bs.map Bucket.key) : Sorted cmp bs' := by
  have hmap : (bs.map Bucket.key).Pairwise fun a b => cmp a b < 0 := by
    simpa [Sorted, List.pairwise_map] using hs
  rw [← hkeys] at hmap
  simpa [Sorted, List.pairwise_map] using hmap

theorem Sorted.sublist {bs' : List (Bucket κ ν)} (hs : Sorted cmp bs) (h : bs'.Sublist bs) :
    Sorted cmp bs' :=
  List.Pairwise.sublist h hs

/-- A new class goes where the comparison puts it. -/
theorem Sorted.insert_between {as cs : List (Bucket κ ν)} {mk : Bucket κ ν}
    (h : PreorderCmp D cmp) (hs : Sorted cmp (as ++ cs)) (hD : ∀ b ∈ as ++ cs, D b.key)
    (hk : D mk.key) (hbelow : ∀ a ∈ as, cmp a.key mk.key < 0)
    (habove : ∀ a ∈ cs, 0 < cmp a.key mk.key) : Sorted cmp (as ++ mk :: cs) := by
  obtain ⟨has, hcs, hcross⟩ := sorted_append.1 hs
  refine sorted_append.2 ⟨has, sorted_cons.2 ⟨?_, hcs⟩, ?_⟩
  · intro a ha
    have := h.swap hk (hD a (by simp [ha]))
    have := habove a ha
    omega
  · intro a ha b hb
    rcases List.mem_cons.1 hb with rfl | hb
    · exact hbelow a ha
    · exact hcross a ha b hb

/-- Insertion keeps the buckets sorted. -/
theorem Sorted.insert {same : ν → ν → Bool} {mk : Bucket κ ν} {v : ν} (h : PreorderCmp D cmp)
    (hs : Sorted cmp bs) (hD : ∀ b ∈ bs, D b.key) (hk : D k) (hmk : mk.key = k) :
    Sorted cmp (Bucket.insert (fun x => cmp x k) same mk v bs) := by
  subst hmk
  rcases position h hs hD hk with ⟨as, b, cs, rfl, hbelow, hhit, _⟩ | ⟨as, cs, rfl, hbelow, habove⟩
  · rw [insert_append hbelow, insert_cons_of_eq (c := fun x => cmp x mk.key) hhit]
    exact hs.of_keys (by simp)
  · rw [insert_append hbelow]
    have hnew := Sorted.insert_between h hs hD hk hbelow habove
    cases cs with
    | nil => exact hnew
    | cons d cs =>
        rw [insert_cons_of_gt (c := fun x => cmp x mk.key) (habove d (by simp))]
        exact hnew

/-- Deletion keeps the buckets sorted. -/
theorem Sorted.delete {c : κ → Int} {rest : List ν → List ν} (hs : Sorted cmp bs) :
    Sorted cmp (Bucket.delete c rest bs) := by
  have hmap : (bs.map Bucket.key).Pairwise fun a b => cmp a b < 0 := by
    simpa [Sorted, List.pairwise_map] using hs
  have hsub : ((Bucket.delete c rest bs).map Bucket.key).Pairwise fun a b => cmp a b < 0 :=
    List.Pairwise.sublist (delete_keys_sublist bs) hmap
  simpa [Sorted, List.pairwise_map] using hsub

end Sorted

/-! ## Values of one bucket -/

/-- No two values of any bucket are the `same`, and every bucket has one. -/
def ValsOk (same : ν → ν → Bool) (bs : List (Bucket κ ν)) : Prop :=
  ∀ b ∈ bs, b.vals ≠ [] ∧ b.vals.Pairwise fun x y => same x y = false

theorem pairwise_appendNew {same : ν → ν → Bool} {vs : List ν} {v : ν}
    (h : vs.Pairwise fun x y => same x y = false) :
    (appendNew same vs v).Pairwise fun x y => same x y = false := by
  unfold appendNew
  split
  · exact h
  · rename_i hnew
    refine List.pairwise_append.2 ⟨h, by simp, ?_⟩
    intro x hx y hy
    obtain rfl : y = v := by simpa using hy
    simp only [List.any_eq_true, not_exists, not_and, Bool.not_eq_true] at hnew
    exact hnew x hx

/-- Moving the last value to an earlier place keeps the values apart, `same` being symmetric. -/
theorem pairwise_swapRemove {same : ν → ν → Bool} (hsymm : ∀ x y, same x y = same y x)
    {p : ν → Bool} {vs : List ν} (h : vs.Pairwise fun x y => same x y = false) :
    (swapRemove p vs).Pairwise fun x y => same x y = false := by
  have hsymm' : ∀ {x y : ν}, same x y = false → same y x = false := by
    intro x y hxy
    rw [hsymm]
    exact hxy
  obtain ⟨l, hperm, hsub⟩ := swapRemove_subperm p vs
  exact (List.Perm.pairwise_iff hsymm' hperm).1 (List.Pairwise.sublist hsub h)

theorem ValsOk.insert {same : ν → ν → Bool} {bs : List (Bucket κ ν)} (h : ValsOk same bs)
    (c : κ → Int) (tag : Nat) (k : κ) (v : ν) :
    ValsOk same (Bucket.insert c same { tag := tag, key := k, vals := [v] } v bs) := by
  intro b hb
  rcases mem_insert hb with rfl | hb | ⟨d, hd, _, rfl⟩
  · simp
  · exact h b hb
  · refine ⟨?_, pairwise_appendNew (h d hd).2⟩
    have hne := (h d hd).1
    unfold appendNew
    split <;> simp [hne]

theorem ValsOk.delete {same : ν → ν → Bool} {bs : List (Bucket κ ν)} {rest : List ν → List ν}
    (h : ValsOk same bs) (c : κ → Int)
    (hrest : ∀ vs, (vs.Pairwise fun x y => same x y = false) →
      (rest vs).Pairwise fun x y => same x y = false) :
    ValsOk same (Bucket.delete c rest bs) := by
  intro b hb
  rcases mem_delete hb with hb | ⟨d, hd, _, hne, rfl⟩
  · exact h b hb
  · exact ⟨hne, hrest _ (h d hd).2⟩

end Bucket

end Lib
end Secondary
