import Mathlib.Algebra.Group.Nat.Defs
import Mathlib.Algebra.GroupWithZero.Nat
import Mathlib.Data.Finset.Card
import Mathlib.Data.Finset.Range
import Mathlib.Data.Nat.Find
import Mathlib.Data.Nat.ModEq
import Mathlib.Data.Nat.Prime.Basic

/-!
# Probing — tables with open addressing

Every key comes with the sequence of slots that are tried for it.  A table is well formed when no
key has two slots and every key is found: the slots tried before its own are not empty.  The
operations on such a table, and moving its entries one by one into a table with other sequences
over the same memory, are stated on functions from slots to what they hold.
-/

namespace Secondary
namespace Lib

universe u v

/-! ## Sequences of slots -/

/-- The sequences reach every one of the `n` slots within `n` tries. -/
structure ProbeSeq {K : Type u} (n : Nat) (probe : K → Nat → Nat) : Prop where
  lt : ∀ k m, probe k m < n
  covers : ∀ k i, i < n → ∃ m < n, probe k m = i

/-- Double hashing: the first slot and the distance from each slot to the next one both come from
the hash `h`. -/
def doubleHash (n h m : Nat) : Nat :=
  (h % n + m * (1 + h % (n - 1))) % n

section DoubleHash

variable {n h : Nat}

@[simp] theorem doubleHash_zero (n h : Nat) : doubleHash n h 0 = h % n := by
  simp [doubleHash]

/-- The next slot, without a division. -/
theorem doubleHash_succ (hn : 2 ≤ n) (h m : Nat) :
    doubleHash n h (m + 1) =
      if n ≤ doubleHash n h m + (1 + h % (n - 1)) then
        doubleHash n h m + (1 + h % (n - 1)) - n
      else doubleHash n h m + (1 + h % (n - 1)) := by
  have hlt : doubleHash n h m < n := Nat.mod_lt _ (by omega)
  have hinc : h % (n - 1) < n - 1 := Nat.mod_lt _ (by omega)
  have hnext : doubleHash n h (m + 1) = (doubleHash n h m + (1 + h % (n - 1))) % n := by
    calc doubleHash n h (m + 1)
        = (h % n + m * (1 + h % (n - 1)) + (1 + h % (n - 1))) % n := by
          rw [doubleHash, Nat.succ_mul, Nat.add_assoc (h % n)]
      _ = (doubleHash n h m + (1 + h % (n - 1))) % n := (Nat.mod_add_mod _ n _).symm
  rw [hnext]
  split
  · next hle =>
      rw [Nat.mod_eq_sub_mod hle, Nat.mod_eq_of_lt (by omega)]
  · next hle => exact Nat.mod_eq_of_lt (by omega)

/-- Within `n` tries no slot is tried twice, where `n` is prime. -/
theorem doubleHash_injective (hp : n.Prime) {m m' : Nat} (hm : m < n) (hm' : m' < n)
    (heq : doubleHash n h m = doubleHash n h m') : m = m' := by
  have htwo := hp.two_le
  have hinc : h % (n - 1) < n - 1 := Nat.mod_lt _ (by omega)
  have hcoprime : Nat.Coprime n (1 + h % (n - 1)) := by
    rw [hp.coprime_iff_not_dvd]
    intro hdvd
    have := Nat.le_of_dvd (by omega) hdvd
    omega
  have hmod : m * (1 + h % (n - 1)) ≡ m' * (1 + h % (n - 1)) [MOD n] :=
    Nat.ModEq.add_left_cancel' (h % n) heq
  have hcancel : m ≡ m' [MOD n] := Nat.ModEq.cancel_right_of_coprime hcoprime hmod
  exact Nat.ModEq.eq_of_lt_of_lt hcancel hm hm'

theorem doubleHash_lt (hp : n.Prime) (h m : Nat) : doubleHash n h m < n :=
  Nat.mod_lt _ hp.pos

theorem probeSeq_doubleHash {K : Type u} (hp : n.Prime) (hash : K → Nat) :
    ProbeSeq n fun k => doubleHash n (hash k) where
  lt k m := doubleHash_lt hp (hash k) m
  covers k i hi := by
    -- `n` tries that are all different cannot leave a slot out.
    have hsurj : Set.SurjOn (doubleHash n (hash k)) (Finset.range n) (Finset.range n) := by
      refine Finset.surjOn_of_injOn_of_card_le _ ?_ ?_ le_rfl
      · intro m _
        simpa using doubleHash_lt hp (hash k) m
      · intro m hm m' hm' heq
        exact doubleHash_injective hp (by simpa using hm) (by simpa using hm') heq
    obtain ⟨m, hm, hmi⟩ := hsurj (by simpa using hi : i ∈ ((Finset.range n : Finset Nat) : Set Nat))
    exact ⟨m, by simpa using hm, hmi⟩

/-- After `n` tries the sequence is back at its first slot, and not before. -/
theorem doubleHash_eq_first_iff (hp : n.Prime) {m : Nat} (hm : m < n) :
    doubleHash n h (m + 1) = doubleHash n h 0 ↔ m + 1 = n := by
  constructor
  · intro heq
    by_contra hne
    have := doubleHash_injective hp (by omega) hp.pos heq
    omega
  · intro hm
    rw [hm]
    simp [doubleHash]

end DoubleHash

/-! ## Counting slots -/

section Count

variable {α : Type u}

/-- The number of the first `n` slots with `P`. -/
def slotCount (n : Nat) (P : α → Prop) [DecidablePred P] (s : Nat → α) : Nat :=
  ((Finset.range n).filter fun i => P (s i)).card

variable {n : Nat} {P : α → Prop} [DecidablePred P] {s : Nat → α}

theorem slotCount_lt_iff : slotCount n P s < n ↔ ∃ i < n, ¬P (s i) := by
  have hle : slotCount n P s ≤ n := by
    simpa [slotCount] using Finset.card_filter_le (Finset.range n) fun i => P (s i)
  have hfull : slotCount n P s = n ↔ ∀ i < n, P (s i) := by
    have := Finset.card_filter_eq_iff (s := Finset.range n) (p := fun i => P (s i))
    simpa [slotCount] using this
  rw [Nat.lt_iff_le_and_ne, and_iff_right hle, Ne, hfull]
  simp

/-- Changing one slot changes the count by what that slot was and is. -/
theorem slotCount_update {x : Nat} (hx : x < n) (a : α) :
    slotCount n P (Function.update s x a) + (if P (s x) then 1 else 0) =
      slotCount n P s + (if P a then 1 else 0) := by
  have hsplit : ∀ t : Nat → α, slotCount n P t =
      (((Finset.range n).erase x).filter fun i => P (t i)).card + if P (t x) then 1 else 0 := by
    intro t
    have hinsert : Finset.range n = insert x ((Finset.range n).erase x) :=
      (Finset.insert_erase (Finset.mem_range.2 hx)).symm
    rw [slotCount]
    conv_lhs => rw [hinsert]
    rw [Finset.filter_insert]
    split
    · rw [Finset.card_insert_of_notMem (by simp)]
    · simp
  have hrest : (((Finset.range n).erase x).filter fun i => P (Function.update s x a i)).card =
      (((Finset.range n).erase x).filter fun i => P (s i)).card := by
    refine congrArg Finset.card (Finset.filter_congr fun i hi => ?_)
    rw [Function.update_of_ne (Finset.ne_of_mem_erase hi)]
  rw [hsplit, hsplit s, hrest, Function.update_self]
  omega

end Count

/-! ## Tables -/

inductive Slot (K : Type u) (V : Type v)
  | empty
  | deleted
  | live (k : K) (v : V)

namespace Slot

variable {K : Type u} {V : Type v}

def isEmpty : Slot K V → Bool
  | empty => true
  | _ => false

def isLive : Slot K V → Bool
  | live _ _ => true
  | _ => false

/-- The key of a live slot. -/
def key? : Slot K V → Option K
  | .live k _ => some k
  | _ => none

end Slot

variable {K : Type u} {V : Type v}

/-- The entries of a table. -/
def HasEntry (n : Nat) (s : Nat → Slot K V) (k : K) (v : V) : Prop :=
  ∃ i < n, s i = .live k v

/-- A table in which no key has two slots, and every key is found. -/
structure Probed (n : Nat) (probe : K → Nat → Nat) (s : Nat → Slot K V) : Prop where
  unique : ∀ {i j k v w}, i < n → j < n → s i = .live k v → s j = .live k w → i = j
  reached : ∀ {i k v}, i < n → s i = .live k v →
    ∃ m, probe k m = i ∧ ∀ l < m, (s (probe k l)).isEmpty = false

/-- The slot ends the search for `k`. -/
def Slot.Stops (k : K) (x : Slot K V) : Prop :=
  x = .empty ∨ ∃ v, x = .live k v

section Tables

variable {n : Nat} {probe : K → Nat → Nat} {s : Nat → Slot K V} {k : K} {v : V}

/-- A search ends where there is an empty slot. -/
theorem exists_stop (hprobe : ProbeSeq n probe) (hempty : ∃ i < n, s i = .empty) (k : K) :
    ∃ m < n, (s (probe k m)).Stops k ∧ ∀ l < m, ¬(s (probe k l)).Stops k := by
  obtain ⟨i, hi, hs⟩ := hempty
  obtain ⟨m, hm, rfl⟩ := hprobe.covers k i hi
  classical
  have hex : ∃ m, (s (probe k m)).Stops k := ⟨m, Or.inl hs⟩
  refine ⟨Nat.find hex, ?_, Nat.find_spec hex, fun l hl => Nat.find_min hex hl⟩
  exact Nat.lt_of_le_of_lt (Nat.find_min' hex (Or.inl hs)) hm

/-- A search that ends at an empty slot was for a key that the table does not hold. -/
theorem Probed.not_hasEntry_of_empty (h : Probed n probe s) {m : Nat}
    (hs : s (probe k m) = .empty) (hbefore : ∀ l < m, ¬(s (probe k l)).Stops k) (v : V) :
    ¬HasEntry n s k v := by
  rintro ⟨i, hi, hlive⟩
  obtain ⟨m', rfl, hpath⟩ := h.reached hi hlive
  rcases Nat.lt_trichotomy m' m with hlt | rfl | hlt
  · exact hbefore m' hlt (Or.inr ⟨v, hlive⟩)
  · rw [hs] at hlive
    cases hlive
  · have := hpath m hlt
    rw [hs] at this
    cases this

/-- What was tried before the end of a search was not empty. -/
theorem not_isEmpty_of_not_stops {x : Slot K V} (h : ¬x.Stops k) : x.isEmpty = false := by
  cases x with
  | empty => exact absurd (Or.inl rfl) h
  | deleted => rfl
  | live k v => rfl

/-- A new key may take a slot on its way that nobody uses. -/
theorem Probed.place (h : Probed n probe s) {x : Nat} (hx : x < n) (hfree : (s x).isLive = false)
    (hnew : ∀ v, ¬HasEntry n s k v)
    (hpath : ∃ l, probe k l = x ∧ ∀ l' < l, (s (probe k l')).isEmpty = false) (v : V) :
    Probed n probe (Function.update s x (.live k v)) ∧
      ∀ k' v', HasEntry n (Function.update s x (.live k v)) k' v' ↔
        (k' = k ∧ v' = v) ∨ HasEntry n s k' v' := by
  have hkeep : ∀ {i k' v'}, s i = .live k' v' → i ≠ x := by
    rintro i k' v' hi rfl
    rw [hi] at hfree
    cases hfree
  have hfilled : ∀ i, (s i).isEmpty = false →
      (Function.update s x (.live k v) i).isEmpty = false := by
    intro i hi
    by_cases hix : i = x
    · rw [hix, Function.update_self]
      rfl
    · rwa [Function.update_of_ne hix]
  refine ⟨⟨?_, ?_⟩, ?_⟩
  · intro i j k' v' w' hi hj hlive hlive'
    by_cases hix : i = x <;> by_cases hjx : j = x
    · rw [hix, hjx]
    · rw [hix, Function.update_self] at hlive
      rw [Function.update_of_ne hjx] at hlive'
      cases hlive
      exact absurd ⟨j, hj, hlive'⟩ (hnew w')
    · rw [Function.update_of_ne hix] at hlive
      rw [hjx, Function.update_self] at hlive'
      cases hlive'
      exact absurd ⟨i, hi, hlive⟩ (hnew v')
    · rw [Function.update_of_ne hix] at hlive
      rw [Function.update_of_ne hjx] at hlive'
      exact h.unique hi hj hlive hlive'
  · intro i k' v' hi hlive
    by_cases hix : i = x
    · rw [hix, Function.update_self] at hlive
      cases hlive
      obtain ⟨l, hl, hbefore⟩ := hpath
      exact ⟨l, by rw [hl, hix], fun l' hl' => hfilled _ (hbefore l' hl')⟩
    · rw [Function.update_of_ne hix] at hlive
      obtain ⟨m, hm, hbefore⟩ := h.reached hi hlive
      exact ⟨m, hm, fun l hl => hfilled _ (hbefore l hl)⟩
  · intro k' v'
    constructor
    · rintro ⟨i, hi, hlive⟩
      by_cases hix : i = x
      · rw [hix, Function.update_self] at hlive
        cases hlive
        exact Or.inl ⟨rfl, rfl⟩
      · rw [Function.update_of_ne hix] at hlive
        exact Or.inr ⟨i, hi, hlive⟩
    · rintro (⟨rfl, rfl⟩ | ⟨i, hi, hlive⟩)
      · exact ⟨x, hx, Function.update_self ..⟩
      · exact ⟨i, hi, by rwa [Function.update_of_ne (hkeep hlive)]⟩

/-- A key may get another value. -/
theorem Probed.setVal (h : Probed n probe s) {x : Nat} (hx : x < n) (hlive : s x = .live k v)
    (w : V) :
    Probed n probe (Function.update s x (.live k w)) ∧
      ∀ k' v', HasEntry n (Function.update s x (.live k w)) k' v' ↔
        (k' = k ∧ v' = w) ∨ (k' ≠ k ∧ HasEntry n s k' v') := by
  -- The slots hold the same keys as before.
  have hback : ∀ {i k' v'}, Function.update s x (.live k w) i = .live k' v' →
      ∃ u, s i = .live k' u := by
    intro i k' v' hi
    by_cases hix : i = x
    · subst hix
      rw [Function.update_self] at hi
      cases hi
      exact ⟨v, hlive⟩
    · rw [Function.update_of_ne hix] at hi
      exact ⟨v', hi⟩
  have hempty : ∀ i, (Function.update s x (.live k w) i).isEmpty = (s i).isEmpty := by
    intro i
    by_cases hix : i = x
    · subst hix
      rw [Function.update_self, hlive]
      rfl
    · rw [Function.update_of_ne hix]
  refine ⟨⟨?_, ?_⟩, ?_⟩
  · intro i j k' v' w' hi hj h₁ h₂
    obtain ⟨_, h₁⟩ := hback h₁
    obtain ⟨_, h₂⟩ := hback h₂
    exact h.unique hi hj h₁ h₂
  · intro i k' v' hi h₁
    obtain ⟨_, h₁⟩ := hback h₁
    obtain ⟨m, hm, hbefore⟩ := h.reached hi h₁
    exact ⟨m, hm, fun l hl => by rw [hempty, hbefore l hl]⟩
  · intro k' v'
    constructor
    · rintro ⟨i, hi, hi'⟩
      by_cases hix : i = x
      · rw [hix, Function.update_self] at hi'
        cases hi'
        exact Or.inl ⟨rfl, rfl⟩
      · rw [Function.update_of_ne hix] at hi'
        refine Or.inr ⟨?_, i, hi, hi'⟩
        rintro rfl
        exact hix (h.unique hi hx hi' hlive)
    · rintro (⟨rfl, rfl⟩ | ⟨hne, i, hi, hi'⟩)
      · exact ⟨x, hx, Function.update_self ..⟩
      · refine ⟨i, hi, ?_⟩
        rwa [Function.update_of_ne]
        rintro rfl
        rw [hlive] at hi'
        cases hi'
        exact hne rfl

/-- A slot that is marked as deleted still leads to the slots behind it. -/
theorem Probed.remove (h : Probed n probe s) {x : Nat} (hx : x < n) (hlive : s x = .live k v) :
    Probed n probe (Function.update s x .deleted) ∧
      ∀ k' v', HasEntry n (Function.update s x .deleted) k' v' ↔ k' ≠ k ∧ HasEntry n s k' v' := by
  have hback : ∀ {i k' v'}, Function.update s x .deleted i = .live k' v' →
      i ≠ x ∧ s i = .live k' v' := by
    intro i k' v' hi
    by_cases hix : i = x
    · rw [hix, Function.update_self] at hi
      cases hi
    · rw [Function.update_of_ne hix] at hi
      exact ⟨hix, hi⟩
  have hempty : ∀ i, (Function.update s x .deleted i).isEmpty = (s i).isEmpty := by
    intro i
    by_cases hix : i = x
    · subst hix
      rw [Function.update_self, hlive]
      rfl
    · rw [Function.update_of_ne hix]
  refine ⟨⟨?_, ?_⟩, ?_⟩
  · intro i j k' v' w' hi hj h₁ h₂
    exact h.unique hi hj (hback h₁).2 (hback h₂).2
  · intro i k' v' hi h₁
    obtain ⟨m, hm, hbefore⟩ := h.reached hi (hback h₁).2
    exact ⟨m, hm, fun l hl => by rw [hempty, hbefore l hl]⟩
  · intro k' v'
    constructor
    · rintro ⟨i, hi, hi'⟩
      obtain ⟨hix, hi'⟩ := hback hi'
      refine ⟨?_, i, hi, hi'⟩
      rintro rfl
      exact hix (h.unique hi hx hi' hlive)
    · rintro ⟨hne, i, hi, hi'⟩
      refine ⟨i, hi, ?_⟩
      rwa [Function.update_of_ne]
      rintro rfl
      rw [hlive] at hi'
      cases hi'
      exact hne rfl

end Tables

/-! ## Moving a table -/

/-- What a slot holds while the entries of a table are moved over the same memory: an entry that
still has to be moved, or one that is at its new place. -/
inductive Moving (K : Type u) (V : Type v)
  | free
  | old (k : K) (v : V)
  | moved (k : K) (v : V)

namespace Moving

def entry : Moving K V → Option (K × V)
  | free => none
  | old k v => some (k, v)
  | moved k v => some (k, v)

def isOld : Moving K V → Bool
  | old _ _ => true
  | _ => false

def isMoved : Moving K V → Bool
  | moved _ _ => true
  | _ => false

/-- The slot of the table before anything has been moved. -/
def ofSlot : Slot K V → Moving K V
  | .live k v => old k v
  | _ => free

/-- The slot of the table when everything has been moved. -/
def settled : Moving K V → Slot K V
  | moved k v => .live k v
  | _ => .empty

theorem settled_eq_live_iff {x : Moving K V} {k : K} {v : V} :
    x.settled = .live k v ↔ x = .moved k v := by
  cases x <;> simp [settled]

theorem isEmpty_settled (x : Moving K V) : x.settled.isEmpty = !x.isMoved := by
  cases x <;> rfl

/-- The number of the entries in the first `n` slots. -/
def count (n : Nat) (c : Nat → Moving K V) : Nat :=
  slotCount n (fun x => x.entry.isSome = true) c

/-- The number of the entries that still have to be moved. -/
def oldCount (n : Nat) (c : Nat → Moving K V) : Nat :=
  slotCount n (fun x => x.isOld = true) c

section Counts

variable {n x : Nat} {c : Nat → Moving K V} {k k' : K} {v v' : V}

theorem count_put_free (hx : x < n) (hc : c x = free) :
    count n (Function.update c x (moved k v)) = count n c + 1 := by
  have := slotCount_update (P := fun x : Moving K V => x.entry.isSome = true) (s := c) hx
    (moved k v)
  simpa [hc, entry, count] using this

theorem count_put_old (hx : x < n) (hc : c x = old k' v') :
    count n (Function.update c x (moved k v)) = count n c := by
  have := slotCount_update (P := fun x : Moving K V => x.entry.isSome = true) (s := c) hx
    (moved k v)
  simpa [hc, entry, count] using this

theorem oldCount_put_old (hx : x < n) (hc : c x = old k' v') :
    oldCount n (Function.update c x (moved k v)) + 1 = oldCount n c := by
  have := slotCount_update (P := fun x : Moving K V => x.isOld = true) (s := c) hx (moved k v)
  simpa [hc, isOld, oldCount] using this

theorem count_take (hx : x < n) (hc : c x = old k' v') :
    count n (Function.update c x free) + 1 = count n c := by
  have := slotCount_update (P := fun x : Moving K V => x.entry.isSome = true) (s := c) hx free
  simpa [hc, entry, count] using this

theorem oldCount_take (hx : x < n) (hc : c x = old k' v') :
    oldCount n (Function.update c x free) + 1 = oldCount n c := by
  have := slotCount_update (P := fun x : Moving K V => x.isOld = true) (s := c) hx free
  simpa [hc, isOld, oldCount] using this

/-- At first all that is live has to be moved. -/
theorem count_ofSlot {n₀ : Nat} (hle : n₀ ≤ n) (s : Nat → Slot K V) :
    count n (fun i => if i < n₀ then ofSlot (s i) else free) =
      slotCount n₀ (fun x => x.isLive = true) s := by
  rw [count, slotCount, slotCount]
  refine congrArg Finset.card (Finset.ext fun i => ?_)
  simp only [Finset.mem_filter, Finset.mem_range]
  by_cases hi : i < n₀
  · have hlt : i < n := Nat.lt_of_lt_of_le hi hle
    cases s i <;> simp [hi, hlt, ofSlot, entry, Slot.isLive]
  · simp [hi, entry]

/-- In the end all that was moved is live. -/
theorem count_settled (h : ∀ i, (c i).isOld = false) :
    slotCount n (fun x : Slot K V => x.isLive = true) (fun i => (c i).settled) = count n c ∧
      slotCount n (fun x : Slot K V => x.isEmpty = false) (fun i => (c i).settled) = count n c := by
  constructor <;> refine congrArg Finset.card (Finset.filter_congr fun i _ => ?_) <;>
    have hi := h i <;> cases hc : c i <;>
    simp [hc, isOld, settled, entry, Slot.isLive, Slot.isEmpty] at hi ⊢

end Counts

end Moving

/-- The entries `E` are those in the slots and the one that is in between, each key once.  What has
been moved is found by its new sequence. -/
structure Rehash (probe : K → Nat → Nat) (E : K → V → Prop) (c : Nat → Moving K V)
    (hand : Option (K × V)) : Prop where
  unique : ∀ {i j k v w}, (c i).entry = some (k, v) → (c j).entry = some (k, w) → i = j
  fresh : ∀ {k v}, hand = some (k, v) → ∀ i w, (c i).entry ≠ some (k, w)
  entries : ∀ k v, E k v ↔ hand = some (k, v) ∨ ∃ i, (c i).entry = some (k, v)
  reached : ∀ {i k v}, c i = .moved k v →
    ∃ m, probe k m = i ∧ ∀ l < m, (c (probe k l)).isMoved = true

namespace Rehash

variable {n : Nat} {probe : K → Nat → Nat} {E : K → V → Prop} {c : Nat → Moving K V} {k : K} {v : V}

/-- Before the first move. -/
theorem start {s : Nat → Slot K V} {probe₀ : K → Nat → Nat} (h : Probed n probe₀ s) :
    Rehash probe (HasEntry n s) (fun i => if i < n then .ofSlot (s i) else .free) none where
  unique := by
    intro i j k v w hi hj
    have hlive : ∀ {i v}, (if i < n then Moving.ofSlot (s i) else .free).entry = some (k, v) →
        i < n ∧ s i = .live k v := by
      intro i v hi
      by_cases hlt : i < n
      · rw [if_pos hlt] at hi
        cases hs : s i <;> simp [hs, Moving.ofSlot, Moving.entry] at hi
        exact ⟨hlt, by rw [hi.1, hi.2]⟩
      · simp [hlt, Moving.entry] at hi
    exact h.unique (hlive hi).1 (hlive hj).1 (hlive hi).2 (hlive hj).2
  fresh := by simp
  entries := by
    intro k v
    simp only [reduceCtorEq, false_or, HasEntry]
    refine exists_congr fun i => ?_
    by_cases hlt : i < n
    · cases s i <;> simp [hlt, Moving.ofSlot, Moving.entry]
    · simp [hlt, Moving.entry]
  reached := by
    intro i k v hi
    by_cases hlt : i < n
    · rw [if_pos hlt] at hi
      cases hs : s i <;> rw [hs] at hi <;> cases hi
    · rw [if_neg hlt] at hi
      cases hi

/-- An entry is taken from its old place. -/
theorem take (h : Rehash probe E c none) {j : Nat} (hj : c j = .old k v) :
    Rehash probe E (Function.update c j .free) (some (k, v)) := by
  have hback : ∀ {i k' v'}, (Function.update c j .free i).entry = some (k', v') →
      i ≠ j ∧ (c i).entry = some (k', v') := by
    intro i k' v' hi
    by_cases hij : i = j
    · rw [hij, Function.update_self] at hi
      cases hi
    · rw [Function.update_of_ne hij] at hi
      exact ⟨hij, hi⟩
  have hentry : (c j).entry = some (k, v) := by rw [hj]; rfl
  refine ⟨fun h₁ h₂ => h.unique (hback h₁).2 (hback h₂).2, ?_, ?_, ?_⟩
  · rintro k' v' ⟨⟩ i w hi
    exact (hback hi).1 (h.unique (hback hi).2 hentry)
  · intro k' v'
    rw [h.entries]
    simp only [reduceCtorEq, false_or]
    constructor
    · rintro ⟨i, hi⟩
      by_cases hij : i = j
      · rw [hij, hentry] at hi
        exact Or.inl hi
      · exact Or.inr ⟨i, by rwa [Function.update_of_ne hij]⟩
    · rintro (hkv | ⟨i, hi⟩)
      · exact ⟨j, hentry.trans hkv⟩
      · exact ⟨i, (hback hi).2⟩
  · intro i k' v' hi
    have hij : i ≠ j := by
      rintro rfl
      rw [Function.update_self] at hi
      cases hi
    rw [Function.update_of_ne hij] at hi
    obtain ⟨m, hm, hbefore⟩ := h.reached hi
    refine ⟨m, hm, fun l hl => ?_⟩
    have hne : probe k' l ≠ j := by
      intro heq
      have := hbefore l hl
      rw [heq, hj] at this
      cases this
    rw [Function.update_of_ne hne, hbefore l hl]

/-- The entry in between gets the first slot on its way that nothing has been moved to, and what was
still there is in between next. -/
theorem put (h : Rehash probe E c (some (k, v))) {m : Nat}
    (hbefore : ∀ l < m, (c (probe k l)).isMoved = true) (hx : (c (probe k m)).isMoved = false) :
    Rehash probe E (Function.update c (probe k m) (.moved k v)) (c (probe k m)).entry := by
  have hmoved : ∀ i, (c i).isMoved = true →
      (Function.update c (probe k m) (.moved k v) i).isMoved = true := by
    intro i hi
    rwa [Function.update_of_ne]
    rintro rfl
    rw [hx] at hi
    cases hi
  -- Every entry but the new one was there before, at another slot.
  have hback : ∀ {i k' v'},
      (Function.update c (probe k m) (.moved k v) i).entry = some (k', v') →
      (i = probe k m ∧ k' = k ∧ v' = v) ∨ (i ≠ probe k m ∧ (c i).entry = some (k', v')) := by
    intro i k' v' hi
    by_cases hix : i = probe k m
    · rw [hix, Function.update_self] at hi
      cases hi
      exact Or.inl ⟨hix, rfl, rfl⟩
    · rw [Function.update_of_ne hix] at hi
      exact Or.inr ⟨hix, hi⟩
  refine ⟨?_, ?_, ?_, ?_⟩
  · intro i j k' v' w' h₁ h₂
    rcases hback h₁ with ⟨hi, hk, _⟩ | ⟨_, hi⟩ <;> rcases hback h₂ with ⟨hj, hk', _⟩ | ⟨_, hj⟩
    · rw [hi, hj]
    · exact absurd (hk ▸ hj) (h.fresh rfl j w')
    · exact absurd (hk' ▸ hi) (h.fresh rfl i v')
    · exact h.unique hi hj
  · intro k' v' hhand i w hi
    rcases hback hi with ⟨rfl, rfl, rfl⟩ | ⟨hne, hi⟩
    · exact h.fresh rfl _ v' hhand
    · exact hne (h.unique hi hhand)
  · intro k' v'
    rw [h.entries]
    constructor
    · rintro (hkv | ⟨i, hi⟩)
      · cases hkv
        exact Or.inr ⟨probe k m, by rw [Function.update_self]; rfl⟩
      · by_cases hix : i = probe k m
        · exact Or.inl (hix ▸ hi)
        · exact Or.inr ⟨i, by rwa [Function.update_of_ne hix]⟩
    · rintro (hhand | ⟨i, hi⟩)
      · exact Or.inr ⟨_, hhand⟩
      · rcases hback hi with ⟨_, rfl, rfl⟩ | ⟨_, hi⟩
        · exact Or.inl rfl
        · exact Or.inr ⟨i, hi⟩
  · intro i k' v' hi
    by_cases hix : i = probe k m
    · rw [hix, Function.update_self] at hi
      cases hi
      exact ⟨m, hix.symm, fun l hl => hmoved _ (hbefore l hl)⟩
    · rw [Function.update_of_ne hix] at hi
      obtain ⟨m', hm', hbefore'⟩ := h.reached hi
      exact ⟨m', hm', fun l hl => hmoved _ (hbefore' l hl)⟩

/-- When nothing is left to be moved, the slots are a table with the new sequences. -/
theorem finish (h : Rehash probe E c none) (hprobe : ProbeSeq n probe)
    (hold : ∀ i, (c i).isOld = false) :
    Probed n probe (fun i => (c i).settled) ∧
      ∀ k v, HasEntry n (fun i => (c i).settled) k v ↔ E k v := by
  refine ⟨⟨?_, ?_⟩, ?_⟩
  · intro i j k v w _ _ hi hj
    rw [Moving.settled_eq_live_iff] at hi hj
    exact h.unique (by rw [hi]; rfl) (by rw [hj]; rfl)
  · intro i k v _ hi
    rw [Moving.settled_eq_live_iff] at hi
    obtain ⟨m, hm, hbefore⟩ := h.reached hi
    exact ⟨m, hm, fun l hl => by rw [Moving.isEmpty_settled, hbefore l hl]; rfl⟩
  · intro k v
    rw [h.entries]
    simp only [reduceCtorEq, false_or, HasEntry, Moving.settled_eq_live_iff]
    constructor
    · rintro ⟨i, _, hi⟩
      exact ⟨i, by rw [hi]; rfl⟩
    · rintro ⟨i, hi⟩
      cases hc : c i with
      | free => simp [hc, Moving.entry] at hi
      | old k' v' => simpa [hc, Moving.isOld] using hold i
      | moved k' v' =>
          rw [hc] at hi
          cases hi
          obtain ⟨m, hm, _⟩ := h.reached hc
          exact ⟨i, hm ▸ hprobe.lt k m, hc⟩

end Rehash

end Lib
end Secondary
