import Secondary.Khash
import Secondary.Lib.Probing

/-!
# KhashSpec — a khash table is a finite map

`Stores` reads a table as a function from slots to what they hold.  `Represents` adds that the
entries are those of a finite map and that the counters are right, and the operations keep it: they
stay inside the arrays, their loops end, and no key is lost when the table grows over its own
memory.
-/

namespace Secondary

open Lib

namespace KHash

/-! ## Flags -/

theorem shiftRight_and_ne_zero_iff (w m : BitVec 32) (s : Nat) :
    (w >>> s) &&& m ≠ 0 ↔ ∃ j < 32, m.getLsbD j = true ∧ w.getLsbD (s + j) = true := by
  rw [Ne, BitVec.eq_of_getLsbD_eq_iff]
  simp [and_comm]

theorem getLsbD_one_mask {j : Nat} (hj : j < 32) : (1 : BitVec 32).getLsbD j = decide (j = 0) := by
  revert j
  decide

theorem getLsbD_two_mask {j : Nat} (hj : j < 32) : (2 : BitVec 32).getLsbD j = decide (j = 1) := by
  revert j
  decide

theorem getLsbD_three_mask {j : Nat} (hj : j < 32) :
    (3 : BitVec 32).getLsbD j = decide (j = 0 ∨ j = 1) := by
  revert j
  decide

/-- The two bits of a slot: whether it is empty, and whether its entry was deleted. -/
def flagBits (flags : List (BitVec 32)) (i : Nat) : Option (Bool × Bool) :=
  flags[i / 16]?.map fun w => (w.getLsbD (2 * (i % 16) + 1), w.getLsbD (2 * (i % 16)))

section Flags

variable {flags : List (BitVec 32)} {i : Nat} {e d : Bool}

theorem acFlag_eq {mask : BitVec 32} {b : Bool} (h : flagBits flags i = some (e, d))
    (hb : ∀ w : BitVec 32, w.getLsbD (2 * (i % 16) + 1) = e → w.getLsbD (2 * (i % 16)) = d →
      ((∃ j < 32, mask.getLsbD j = true ∧ w.getLsbD (2 * (i % 16) + j) = true) ↔ b = true)) :
    acFlag mask flags i = .ok b := by
  obtain ⟨w, hw, hbits⟩ := Option.map_eq_some_iff.1 h
  obtain ⟨he, hd⟩ := Prod.mk.inj hbits
  have hdecide : decide ((w >>> (2 * (i % 16))) &&& mask ≠ 0) = b := by
    rw [Bool.eq_iff_iff, decide_eq_true_iff, shiftRight_and_ne_zero_iff]
    exact hb w he hd
  rw [acFlag, flagWord, hw, orFault_some, ok_bind, hdecide]

theorem acIsEmpty_eq (h : flagBits flags i = some (e, d)) : acIsEmpty flags i = .ok e := by
  refine acFlag_eq h fun w he _ => ?_
  constructor
  · rintro ⟨j, hj, hmask, hw⟩
    rw [getLsbD_two_mask hj, decide_eq_true_iff] at hmask
    rwa [hmask, he] at hw
  · intro h
    exact ⟨1, by decide, by decide, by rw [he, h]⟩

theorem acIsDel_eq (h : flagBits flags i = some (e, d)) : acIsDel flags i = .ok d := by
  refine acFlag_eq h fun w _ hd => ?_
  constructor
  · rintro ⟨j, hj, hmask, hw⟩
    rw [getLsbD_one_mask hj, decide_eq_true_iff] at hmask
    rwa [hmask, Nat.add_zero, hd] at hw
  · intro h
    exact ⟨0, by decide, by decide, by rw [Nat.add_zero, hd, h]⟩

theorem acIsEither_eq (h : flagBits flags i = some (e, d)) : acIsEither flags i = .ok (e || d) := by
  refine acFlag_eq h fun w he hd => ?_
  rw [Bool.or_eq_true]
  constructor
  · rintro ⟨j, hj, hmask, hw⟩
    rw [getLsbD_three_mask hj, decide_eq_true_iff] at hmask
    rcases hmask with rfl | rfl
    · exact Or.inr (by rwa [Nat.add_zero, hd] at hw)
    · exact Or.inl (by rwa [he] at hw)
  · rintro (h | h)
    · exact ⟨1, by decide, by decide, by rw [he, h]⟩
    · exact ⟨0, by decide, by decide, by rw [Nat.add_zero, hd, h]⟩

/-- A word that is assigned has new bits for its slots, and the other slots keep theirs. -/
theorem flagBits_set {w w' : BitVec 32} (hw : flags[i / 16]? = some w)
    (hother : ∀ j a, a < 2 → j / 16 = i / 16 → j ≠ i →
      w'.getLsbD (2 * (j % 16) + a) = w.getLsbD (2 * (j % 16) + a)) (j : Nat) :
    flagBits (flags.set (i / 16) w') j =
      if j = i then some (w'.getLsbD (2 * (i % 16) + 1), w'.getLsbD (2 * (i % 16)))
      else flagBits flags j := by
  have hlt := (List.getElem?_eq_some_iff.1 hw).1
  by_cases hji : j = i
  · rw [if_pos hji, hji, flagBits, List.getElem?_set_self hlt]
    rfl
  · rw [if_neg hji]
    by_cases hword : j / 16 = i / 16
    · have h0 := hother j 0 (by omega) hword hji
      rw [flagBits, hword, List.getElem?_set_self hlt, Option.map_some,
        hother j 1 (by omega) hword hji, ← Nat.add_zero (2 * (j % 16)), h0, Nat.add_zero]
      simp [flagBits, hword, hw]
    · simp [flagBits, List.getElem?_set_ne (Ne.symm hword)]

theorem getLsbD_clear (w mask : BitVec 32) {s j : Nat} (hj : j < 32) :
    (w &&& ~~~(mask <<< s)).getLsbD j =
      (w.getLsbD j && !(!decide (j < s) && mask.getLsbD (j - s))) := by
  rw [BitVec.getLsbD_and, BitVec.getLsbD_not, BitVec.getLsbD_shiftLeft]
  simp only [hj, decide_true, Bool.true_and]

theorem acClear_eq (mask : BitVec 32) (h : flagBits flags i = some (e, d))
    (hmask : ∀ j < 32, 2 ≤ j → mask.getLsbD j = false) :
    ∃ flags', acClear mask flags i = .ok flags' ∧ flags'.length = flags.length ∧
      ∀ j, flagBits flags' j =
        if j = i then some (e && !mask.getLsbD 1, d && !mask.getLsbD 0)
        else flagBits flags j := by
  obtain ⟨w, hw, hbits⟩ := Option.map_eq_some_iff.1 h
  obtain ⟨rfl, rfl⟩ := Prod.mk.inj hbits
  refine ⟨_, by rw [acClear, flagWord, hw, orFault_some, ok_bind], by simp, fun j => ?_⟩
  rw [flagBits_set hw]
  · rw [getLsbD_clear w mask (by omega), getLsbD_clear w mask (by omega)]
    have h1 : ¬2 * (i % 16) + 1 < 2 * (i % 16) := by omega
    have h1' : 2 * (i % 16) + 1 - 2 * (i % 16) = 1 := by omega
    simp only [h1, h1', Nat.lt_irrefl, Nat.sub_self, decide_false, Bool.not_false, Bool.true_and]
  · intro j a ha hword hji
    rw [getLsbD_clear w mask (by omega)]
    by_cases hlt : 2 * (j % 16) + a < 2 * (i % 16)
    · simp [hlt]
    · have hout : 2 ≤ 2 * (j % 16) + a - 2 * (i % 16) := by omega
      rw [hmask _ (by omega) hout]
      simp

theorem acSetIsEmptyFalse_eq (h : flagBits flags i = some (e, d)) :
    ∃ flags', acSetIsEmptyFalse flags i = .ok flags' ∧ flags'.length = flags.length ∧
      ∀ j, flagBits flags' j = if j = i then some (false, d) else flagBits flags j := by
  obtain ⟨flags', hrun, hlen, hbits⟩ := acClear_eq 2 h fun j hj h2 => by
    rw [getLsbD_two_mask hj]
    exact decide_eq_false (by omega)
  refine ⟨flags', hrun, hlen, fun j => ?_⟩
  rw [hbits, getLsbD_two_mask (by decide), getLsbD_two_mask (by decide)]
  simp

theorem acSetIsBothFalse_eq (h : flagBits flags i = some (e, d)) :
    ∃ flags', acSetIsBothFalse flags i = .ok flags' ∧ flags'.length = flags.length ∧
      ∀ j, flagBits flags' j = if j = i then some (false, false) else flagBits flags j := by
  obtain ⟨flags', hrun, hlen, hbits⟩ := acClear_eq 3 h fun j hj h2 => by
    rw [getLsbD_three_mask hj]
    exact decide_eq_false (by omega)
  refine ⟨flags', hrun, hlen, fun j => ?_⟩
  rw [hbits, getLsbD_three_mask (by decide), getLsbD_three_mask (by decide)]
  simp

theorem acSetIsDelTrue_eq (h : flagBits flags i = some (e, d)) :
    ∃ flags', acSetIsDelTrue flags i = .ok flags' ∧ flags'.length = flags.length ∧
      ∀ j, flagBits flags' j = if j = i then some (e, true) else flagBits flags j := by
  obtain ⟨w, hw, hbits⟩ := Option.map_eq_some_iff.1 h
  obtain ⟨rfl, rfl⟩ := Prod.mk.inj hbits
  have hset : ∀ {j s}, j < 32 → (w ||| ((1 : BitVec 32) <<< s)).getLsbD j =
      (w.getLsbD j || decide (j = s)) := by
    intro j s hj
    rw [BitVec.getLsbD_or, BitVec.getLsbD_shiftLeft, getLsbD_one_mask (by omega)]
    by_cases hlt : j < s
    · simp [hlt, Nat.ne_of_lt hlt]
    · have : j - s = 0 ↔ j = s := by omega
      simp [hj, hlt, this]
  refine ⟨_, by rw [acSetIsDelTrue, flagWord, hw, orFault_some, ok_bind], by simp, fun j => ?_⟩
  rw [flagBits_set hw]
  · rw [hset (by omega), hset (by omega)]
    simp
  · intro j a ha hword hji
    rw [hset (by omega), decide_eq_false, Bool.or_false]
    omega

/-- `memset` makes every slot empty. -/
theorem flagBits_acNewFlags {n : Nat} (hi : i < n) :
    flagBits (acNewFlags n) i = some (true, false) := by
  have hbits : ∀ s < 16, (0xaaaaaaaa : BitVec 32).getLsbD (2 * s + 1) = true ∧
      (0xaaaaaaaa : BitVec 32).getLsbD (2 * s) = false := by
    decide
  have hlt : i / 16 < n / 16 + 1 := by omega
  obtain ⟨he, hd⟩ := hbits (i % 16) (by omega)
  rw [flagBits, acNewFlags, List.getElem?_replicate, if_pos hlt, Option.map_some, he, hd]

end Flags

/-! ## Sizes -/

/-- All odd numbers from `3` to `2 * k + 1` fail to divide `n`.  It is written with the recursor,
which the kernel evaluates fast. -/
def noOddDivisor (n k : Nat) : Bool :=
  Nat.rec true (fun i rest => Bool.and (Nat.blt 0 (n % (2 * i + 3))) rest) k

theorem noOddDivisor_iff (n k : Nat) :
    noOddDivisor n k = true ↔ ∀ i < k, ¬(2 * i + 3) ∣ n := by
  induction k with
  | zero => simp [noOddDivisor]
  | succ k ih =>
      have hstep : noOddDivisor n (k + 1) = (Nat.blt 0 (n % (2 * k + 3)) && noOddDivisor n k) := rfl
      rw [hstep, Bool.and_eq_true, ih, Nat.forall_lt_succ_right, and_comm]
      refine and_congr Iff.rfl ?_
      rw [Nat.dvd_iff_mod_eq_zero]
      simp [Nat.pos_iff_ne_zero]

theorem prime_of_noOddDivisor {n k : Nat} (hn : 3 ≤ n) (hodd : n % 2 = 1)
    (hk : n < (2 * k + 3) * (2 * k + 3)) (h : noOddDivisor n k = true) : n.Prime := by
  rw [noOddDivisor_iff] at h
  rw [Nat.prime_def_le_sqrt]
  refine ⟨by omega, fun d hd hsqrt hdvd => ?_⟩
  have hdd : d * d ≤ n := Nat.le_sqrt.1 hsqrt
  have hlt : d < 2 * k + 3 := by
    by_contra hno
    have := Nat.mul_le_mul (Nat.le_of_not_lt hno) (Nat.le_of_not_lt hno)
    omega
  -- An odd number has odd divisors only.
  have hdodd : d % 2 = 1 := by
    by_contra heven
    have htwo : 2 ∣ n := (Nat.dvd_of_mod_eq_zero (by omega)).trans hdvd
    omega
  exact h ((d - 3) / 2) (by omega) (by rwa [show 2 * ((d - 3) / 2) + 3 = d by omega])

/-- The sizes that a table has while it holds less than half of the last one. -/
def acSizes : List Nat :=
  acPrimeList.take 30

theorem noOddDivisor_acSizes : ∀ n ∈ acSizes, n ≠ 0 →
    n % 2 = 1 ∧ n < (2 * (n.sqrt / 2) + 3) * (2 * (n.sqrt / 2) + 3) ∧
      noOddDivisor n (n.sqrt / 2) = true := by
  decide +kernel

theorem acSizes_bounds : ∀ n ∈ acSizes, n ≠ 0 → 3 ≤ n ∧ n ≤ 2 ^ 31 := by
  decide +kernel

theorem acSizes_prime {n : Nat} (hn : n ∈ acSizes) (hne : n ≠ 0) : n.Prime := by
  obtain ⟨hodd, hk, hnone⟩ := noOddDivisor_acSizes n hn hne
  exact prime_of_noOddDivisor (acSizes_bounds n hn hne).1 hodd hk hnone

/-- The sequence of the slots that are tried for a key. -/
def bucketSeq {K : Type} (hash : K → UInt32) (n : Nat) (key : K) (m : Nat) : Nat :=
  doubleHash n (hash key).toNat m

theorem probeSeq_bucketSeq {K : Type} (hash : K → UInt32) {n : Nat} (hn : n ∈ acSizes)
    (hne : n ≠ 0) : ProbeSeq n (bucketSeq hash n) :=
  probeSeq_doubleHash (acSizes_prime hn hne) fun key => (hash key).toNat

/-- With at most `2 ^ 31` buckets the sum of a slot and a distance does not overflow. -/
theorem nextBucket_eq {n inc i : Nat} (hn : n ≤ 2 ^ 31) (hi : i < n) (hinc : inc < n) :
    nextBucket n inc i = if n ≤ i + inc then i + inc - n else i + inc := by
  have hsum : (i + inc) % 2 ^ 32 = i + inc := Nat.mod_eq_of_lt (by omega)
  simp only [nextBucket, hsum]
  by_cases hle : n ≤ i + inc
  · have hdiff : i + inc + 2 ^ 32 - n = i + inc - n + 2 ^ 32 := by omega
    rw [if_pos hle, if_pos hle, hdiff, Nat.add_mod_right, Nat.mod_eq_of_lt (by omega)]
  · rw [if_neg hle, if_neg hle]

theorem nextBucket_bucketSeq {K : Type} (hash : K → UInt32) {n : Nat} (hn : n ∈ acSizes)
    (hne : n ≠ 0) (key : K) (m : Nat) :
    nextBucket n (1 + (hash key).toNat % (n - 1)) (bucketSeq hash n key m) =
      bucketSeq hash n key (m + 1) := by
  obtain ⟨h3, h31⟩ := acSizes_bounds n hn hne
  have hinc : (hash key).toNat % (n - 1) < n - 1 := Nat.mod_lt _ (by omega)
  rw [nextBucket_eq h31 ((probeSeq_bucketSeq hash hn hne).lt key m) (by omega)]
  exact (doubleHash_succ (by omega) (hash key).toNat m).symm

/-- Before `n` tries the sequence is not back at its first slot. -/
theorem bucketSeq_ne_first {K : Type} (hash : K → UInt32) {n : Nat} (hn : n ∈ acSizes)
    (hne : n ≠ 0) (key : K) {m : Nat} (hm : m + 1 < n) :
    bucketSeq hash n key (m + 1) ≠ bucketSeq hash n key 0 := by
  intro heq
  have := (doubleHash_eq_first_iff (acSizes_prime hn hne) (by omega)).1 heq
  omega

/-! ## Memory -/

section Keys

variable {K V : Type}

/-- The memory of the table holds what `s` says of its slots. -/
structure Stores (h : KHash K V) (s : Nat → Slot K V) : Prop where
  bits : ∀ i < h.nBuckets, ∃ d, flagBits h.flags i = some ((s i).isEmpty, d) ∧
    ((s i).isEmpty = false → d = !(s i).isLive)
  entry : ∀ {i k v}, i < h.nBuckets → s i = .live k v →
    h.keys.cells[i]? = some (some k) ∧ h.vals.cells[i]? = some (some v)
  keysLength : h.keys.cells.length = h.nBuckets
  valsLength : h.vals.cells.length = h.nBuckets

section Search

variable {h : KHash K V} {s : Nat → Slot K V} {i : Nat}

theorem Stores.isEmpty (hs : Stores h s) (hi : i < h.nBuckets) :
    acIsEmpty h.flags i = .ok (s i).isEmpty := by
  obtain ⟨d, hbits, _⟩ := hs.bits i hi
  exact acIsEmpty_eq hbits

theorem Stores.isDel (hs : Stores h s) (hi : i < h.nBuckets) (hne : (s i).isEmpty = false) :
    acIsDel h.flags i = .ok !(s i).isLive := by
  obtain ⟨d, hbits, hd⟩ := hs.bits i hi
  rw [acIsDel_eq hbits, hd hne]

theorem Stores.isEither (hs : Stores h s) (hi : i < h.nBuckets) :
    acIsEither h.flags i = .ok !(s i).isLive := by
  obtain ⟨d, hbits, hd⟩ := hs.bits i hi
  rw [acIsEither_eq hbits]
  cases hx : s i with
  | empty => rfl
  | deleted =>
      rw [hx] at hd
      rw [hd rfl]
      rfl
  | live k v =>
      rw [hx] at hd
      rw [hd rfl]
      rfl

theorem read_of_cell {α : Type} {a : Cells α} {x : α} (ha : a.cells[i]? = some (some x)) :
    a.read Fault.bounds Fault.unset i = .ok x := by
  rw [Cells.read, ha]

variable [DecidableEq K]

theorem Stores.passes (hs : Stores h s) (hi : i < h.nBuckets) (key : K) :
    ∃ b, h.passes key i = .ok b ∧ (b = true ↔ ¬(s i).Stops key) := by
  rw [KHash.passes, hs.isEmpty hi, ok_bind]
  cases hx : s i with
  | empty => exact ⟨false, rfl, by simp [Slot.Stops]⟩
  | deleted =>
      refine ⟨true, ?_, by simp [Slot.Stops]⟩
      rw [hs.isDel hi (by rw [hx]; rfl), hx]
      rfl
  | live k v =>
      refine ⟨decide (k ≠ key), ?_, by simp [Slot.Stops]⟩
      rw [hs.isDel hi (by rw [hx]; rfl), hx]
      simp [Slot.isEmpty, Slot.isLive, read_of_cell (hs.entry hi hx).1]

variable {hash : K → UInt32}

/-- The loop of `kh_get` goes to the first slot that ends the search. -/
theorem getLoop_eq (hs : Stores h s) (hn : h.nBuckets ∈ acSizes) (hne : h.nBuckets ≠ 0) {key : K}
    {N : Nat} (hN : N < h.nBuckets) (hstop : (s (bucketSeq hash h.nBuckets key N)).Stops key)
    (hbefore : ∀ l < N, ¬(s (bucketSeq hash h.nBuckets key l)).Stops key) :
    ∀ fuel m, m ≤ N → N < fuel + m →
      h.getLoop key (1 + (hash key).toNat % (h.nBuckets - 1)) (bucketSeq hash h.nBuckets key 0)
          fuel (bucketSeq hash h.nBuckets key m) =
        .ok (if (s (bucketSeq hash h.nBuckets key N)).isLive then bucketSeq hash h.nBuckets key N
          else h.nBuckets) := by
  have hprobe := probeSeq_bucketSeq hash hn hne
  intro fuel
  induction fuel with
  | zero => intro m hm hfuel; omega
  | succ fuel ih =>
      intro m hm hfuel
      have hlt := hprobe.lt key m
      obtain ⟨b, hpass, hb⟩ := hs.passes hlt key
      rw [getLoop, hpass, ok_bind]
      by_cases hmN : m = N
      · subst hmN
        have hfalse : b = false := by
          rw [Bool.eq_false_iff, Ne, hb, not_not]
          exact hstop
        rw [hfalse, if_neg (by simp), hs.isEither hlt, ok_bind]
        cases (s (bucketSeq hash h.nBuckets key m)).isLive <;> rfl
      · rw [hb.2 (hbefore m (by omega)), if_pos rfl]
        simp only [nextBucket_bucketSeq hash hn hne]
        rw [if_neg (bucketSeq_ne_first hash hn hne key (by omega))]
        exact ih (m + 1) (by omega) (by omega)

/-- Either slot `x` has the key, or the table does not hold it and `x` is a slot for it. -/
inductive Found (hash : K → UInt32) (n : Nat) (s : Nat → Slot K V) (key : K) (x : Nat) : Prop
  | live (v : V) (slot : s x = .live key v)
  | free (slot : (s x).isLive = false) (absent : ∀ v, ¬HasEntry n s key v)
      (path : ∃ l, bucketSeq hash n key l = x ∧
        ∀ l' < l, (s (bucketSeq hash n key l')).isEmpty = false)

/-- `kh_get` gives the slot of the key, or the number of buckets. -/
theorem khGet_spec (hs : Stores h s) (hn : h.nBuckets ∈ acSizes)
    (hprobed : Probed h.nBuckets (bucketSeq hash h.nBuckets) s)
    (hempty : h.nBuckets ≠ 0 → ∃ i < h.nBuckets, s i = .empty) (key : K) :
    ∃ x, khGet hash h key = .ok x ∧
      ((x < h.nBuckets ∧ ∃ v, s x = .live key v) ∨
        (x = h.nBuckets ∧ ∀ v, ¬HasEntry h.nBuckets s key v)) := by
  by_cases hne : h.nBuckets = 0
  · refine ⟨0, by simp [khGet, hne], Or.inr ⟨hne.symm, ?_⟩⟩
    rintro v ⟨i, hi, _⟩
    omega
  · have hprobe := probeSeq_bucketSeq hash hn hne
    obtain ⟨N, hN, hstop, hbefore⟩ := exists_stop hprobe (hempty hne) key
    have hloop := getLoop_eq hs hn hne hN hstop hbefore (h.nBuckets + 1) 0 (by omega) (by omega)
    have hfirst : bucketSeq hash h.nBuckets key 0 = (hash key).toNat % h.nBuckets :=
      doubleHash_zero _ _
    refine ⟨_, by simpa only [khGet, hne, ne_eq, not_false_iff, if_true, hfirst] using hloop, ?_⟩
    rcases hstop with hs0 | ⟨v, hlive⟩
    · exact Or.inr ⟨by simp [hs0, Slot.isLive], hprobed.not_hasEntry_of_empty hs0 hbefore⟩
    · have hif : (s (bucketSeq hash h.nBuckets key N)).isLive = true := by rw [hlive]; rfl
      rw [if_pos hif]
      exact Or.inl ⟨hprobe.lt key N, v, hlive⟩

/-- The loop of `kh_put` goes to the first slot that ends the search, and `site` is a deleted slot
on the way there, if there is one. -/
theorem putLoop_spec (hs : Stores h s) (hn : h.nBuckets ∈ acSizes) (hne : h.nBuckets ≠ 0) {key : K}
    {N : Nat} (hN : N < h.nBuckets) (hstop : (s (bucketSeq hash h.nBuckets key N)).Stops key)
    (hbefore : ∀ l < N, ¬(s (bucketSeq hash h.nBuckets key l)).Stops key) :
    ∀ fuel m site, m ≤ N → N < fuel + m →
      (site = h.nBuckets ∨ ∃ l < m, bucketSeq hash h.nBuckets key l = site ∧ s site = .deleted) →
      ∃ site', h.putLoop key (1 + (hash key).toNat % (h.nBuckets - 1))
          (bucketSeq hash h.nBuckets key 0) fuel (bucketSeq hash h.nBuckets key m) site =
        .ok (bucketSeq hash h.nBuckets key N, site', h.nBuckets) ∧
        (site' = h.nBuckets ∨
          ∃ l < N, bucketSeq hash h.nBuckets key l = site' ∧ s site' = .deleted) := by
  have hprobe := probeSeq_bucketSeq hash hn hne
  intro fuel
  induction fuel with
  | zero => intro m site hm hfuel; omega
  | succ fuel ih =>
      intro m site hm hfuel hsite
      have hlt := hprobe.lt key m
      obtain ⟨b, hpass, hb⟩ := hs.passes hlt key
      rw [putLoop, hpass, ok_bind]
      by_cases hmN : m = N
      · subst hmN
        have hfalse : b = false := by
          rw [Bool.eq_false_iff, Ne, hb, not_not]
          exact hstop
        exact ⟨site, by rw [hfalse]; rfl, hsite⟩
      · have hgo := hbefore m (by omega)
        rw [hb.2 hgo, if_pos rfl, hs.isDel hlt (not_isEmpty_of_not_stops hgo), ok_bind]
        simp only [nextBucket_bucketSeq hash hn hne]
        rw [if_neg (bucketSeq_ne_first hash hn hne key (by omega))]
        refine ih (m + 1) _ (by omega) (by omega) ?_
        cases hx : s (bucketSeq hash h.nBuckets key m) with
        | empty => exact absurd (Or.inl hx) hgo
        | deleted => exact Or.inr ⟨m, by omega, rfl, hx⟩
        | live k v =>
            refine hsite.imp id ?_
            rintro ⟨l, hl, hsl⟩
            exact ⟨l, by omega, hsl⟩

theorem putSite_spec (hs : Stores h s) (hn : h.nBuckets ∈ acSizes) (hne : h.nBuckets ≠ 0)
    (hprobed : Probed h.nBuckets (bucketSeq hash h.nBuckets) s)
    (hempty : ∃ i < h.nBuckets, s i = .empty) (key : K) :
    ∃ x < h.nBuckets, putSite hash h key = .ok x ∧ Found hash h.nBuckets s key x := by
  have hprobe := probeSeq_bucketSeq hash hn hne
  obtain ⟨N, hN, hstop, hbefore⟩ := exists_stop hprobe hempty key
  have hfirst : (hash key).toNat % h.nBuckets = bucketSeq hash h.nBuckets key 0 :=
    (doubleHash_zero _ _).symm
  have hfilled : ∀ l < N, (s (bucketSeq hash h.nBuckets key l)).isEmpty = false := fun l hl =>
    not_isEmpty_of_not_stops (hbefore l hl)
  obtain ⟨site, hloop, hsite⟩ := putLoop_spec hs hn hne hN hstop hbefore (h.nBuckets + 1) 0
    h.nBuckets (by omega) (by omega) (Or.inl rfl)
  simp only [putSite, hfirst, hs.isEmpty (hprobe.lt key 0), ok_bind]
  cases h0 : (s (bucketSeq hash h.nBuckets key 0)).isEmpty with
  | true =>
      -- The first slot is empty, so the search ends there.
      have hs0 : s (bucketSeq hash h.nBuckets key 0) = .empty := by
        cases hx : s (bucketSeq hash h.nBuckets key 0) <;> simp [hx, Slot.isEmpty] at h0
        rfl
      refine ⟨_, hprobe.lt key 0, rfl, .free (by rw [hs0]; rfl) ?_ ⟨0, rfl, by simp⟩⟩
      exact hprobed.not_hasEntry_of_empty hs0 (by simp)
  | false =>
      simp only [Bool.false_eq_true, if_false, hloop, ok_bind, if_true,
        hs.isEmpty (hprobe.lt key N)]
      rcases hstop with hsN | ⟨v, hlive⟩
      · have habsent := hprobed.not_hasEntry_of_empty hsN hbefore
        rcases hsite with rfl | ⟨l, hl, rfl, hdel⟩
        · refine ⟨bucketSeq hash h.nBuckets key N, hprobe.lt key N, by simp, ?_⟩
          exact .free (by rw [hsN]; rfl) habsent ⟨N, rfl, hfilled⟩
        · -- The key goes to the deleted slot, not to the empty one behind it.
          have hl' := hprobe.lt key l
          refine ⟨bucketSeq hash h.nBuckets key l, hl', ?_, ?_⟩
          · simp [hsN, Slot.isEmpty, Nat.ne_of_lt hl']
          · exact .free (by rw [hdel]; rfl) habsent
              ⟨l, rfl, fun l' hl' => hfilled l' (by omega)⟩
      · refine ⟨bucketSeq hash h.nBuckets key N, hprobe.lt key N, ?_, .live v hlive⟩
        simp [hlive, Slot.isEmpty]

end Search

/-! ## Growing -/

/-- While the entries are moved to `n` buckets: the old flags say what still has to be moved, the
new flags say what has been. -/
structure Moves (n : Nat) (h : KHash K V) (newFlags : List (BitVec 32)) (c : Nat → Moving K V) :
    Prop where
  newBits : ∀ i < n, flagBits newFlags i = some (!(c i).isMoved, false)
  oldBits : ∀ i < h.nBuckets, ∃ e d, flagBits h.flags i = some (e, d) ∧ (e || d) = !(c i).isOld
  entry : ∀ {i k v}, (c i).entry = some (k, v) →
    h.keys.cells[i]? = some (some k) ∧ h.vals.cells[i]? = some (some v)
  old : ∀ i, (c i).isOld = true → i < h.nBuckets
  keysLength : h.keys.cells.length = n
  valsLength : h.vals.cells.length = n
  le : h.nBuckets ≤ n

/-- Only the memory of the entries and the old flags change while entries are moved. -/
structure SameCounters (h h' : KHash K V) : Prop where
  nBuckets : h'.nBuckets = h.nBuckets
  size : h'.size = h.size

theorem SameCounters.trans {h₁ h₂ h₃ : KHash K V} (h : SameCounters h₁ h₂)
    (h' : SameCounters h₂ h₃) : SameCounters h₁ h₃ :=
  ⟨h'.nBuckets.trans h.nBuckets, h'.size.trans h.size⟩

section Moving

variable {n : Nat} {h : KHash K V} {newFlags : List (BitVec 32)} {c : Nat → Moving K V} {i : Nat}

theorem Moves.isEmpty (hm : Moves n h newFlags c) (hi : i < n) :
    acIsEmpty newFlags i = .ok !(c i).isMoved :=
  acIsEmpty_eq (hm.newBits i hi)

theorem Moves.isEither (hm : Moves n h newFlags c) (hi : i < h.nBuckets) :
    acIsEither h.flags i = .ok !(c i).isOld := by
  obtain ⟨e, d, hbits, hed⟩ := hm.oldBits i hi
  rw [acIsEither_eq hbits, hed]

theorem Moves.isKicked (hm : Moves n h newFlags c) (i : Nat) : h.isKicked i = .ok (c i).isOld := by
  rw [KHash.isKicked]
  by_cases hi : i < h.nBuckets
  · rw [if_pos hi, hm.isEither hi, ok_bind, Bool.not_not]
  · rw [if_neg hi]
    cases hx : (c i).isOld with
    | false => rfl
    | true => exact absurd (hm.old i hx) hi

variable {hash : K → UInt32}

/-- The slot that an entry is moved to is the first one on its way that nothing was moved to. -/
theorem moveSite_eq (hm : Moves n h newFlags c) (hn : n ∈ acSizes) (hne : n ≠ 0) (key : K) {N : Nat}
    (hsite : (c (bucketSeq hash n key N)).isMoved = false)
    (hbefore : ∀ l < N, (c (bucketSeq hash n key l)).isMoved = true) :
    ∀ fuel m, m ≤ N → N < fuel + m →
      moveSite newFlags n (1 + (hash key).toNat % (n - 1)) fuel (bucketSeq hash n key m) =
        .ok (bucketSeq hash n key N) := by
  have hprobe := probeSeq_bucketSeq hash hn hne
  intro fuel
  induction fuel with
  | zero => intro m hm hfuel; omega
  | succ fuel ih =>
      intro m hmN hfuel
      rw [moveSite, hm.isEmpty (hprobe.lt key m), ok_bind]
      by_cases heq : m = N
      · subst heq
        rw [hsite]
        rfl
      · rw [hbefore m (by omega), if_neg (by simp), nextBucket_bucketSeq hash hn hne]
        exact ih (m + 1) (by omega) (by omega)

variable (hash) in
/-- While there is room, there is a slot that an entry can be moved to. -/
theorem exists_site (hn : n ∈ acSizes) (hne : n ≠ 0) (key : K)
    (hroom : Moving.count n c < n) :
    ∃ N < n, (c (bucketSeq hash n key N)).isMoved = false ∧
      ∀ l < N, (c (bucketSeq hash n key l)).isMoved = true := by
  obtain ⟨i, hi, hentry⟩ := slotCount_lt_iff.1 hroom
  obtain ⟨m, hm, rfl⟩ := (probeSeq_bucketSeq hash hn hne).covers key i hi
  have hfree : (c (bucketSeq hash n key m)).isMoved = false := by
    cases hx : c (bucketSeq hash n key m) <;> simp [hx, Moving.entry, Moving.isMoved] at hentry ⊢
  have hex : ∃ m, (c (bucketSeq hash n key m)).isMoved = false := ⟨m, hfree⟩
  refine ⟨Nat.find hex, Nat.lt_of_le_of_lt (Nat.find_min' hex hfree) hm, Nat.find_spec hex, ?_⟩
  intro l hl
  simpa using Nat.find_min hex hl

/-- An entry is written to a slot that nothing was moved to. -/
theorem Moves.put (hm : Moves n h newFlags c) (hi : i < n) (k : K) (v : V)
    {flags' newFlags' : List (BitVec 32)}
    (hnew : ∀ j, flagBits newFlags' j = if j = i then some (false, false) else flagBits newFlags j)
    (hold : ∀ j < h.nBuckets, ∃ e d, flagBits flags' j = some (e, d) ∧
      (e || d) = !(Function.update c i (.moved k v) j).isOld) :
    Moves n
      { h with
        flags := flags'
        keys := { cells := h.keys.cells.set i (some k) }
        vals := { cells := h.vals.cells.set i (some v) } }
      newFlags' (Function.update c i (.moved k v)) where
  newBits := by
    intro j hj
    rw [hnew]
    by_cases hji : j = i
    · rw [if_pos hji, hji, Function.update_self]
      rfl
    · rw [if_neg hji, Function.update_of_ne hji, hm.newBits j hj]
  oldBits := hold
  entry := by
    intro j k' v' hj
    by_cases hji : j = i
    · rw [hji, Function.update_self] at hj
      cases hj
      rw [hji]
      exact ⟨List.getElem?_set_self (by rw [hm.keysLength]; exact hi),
        List.getElem?_set_self (by rw [hm.valsLength]; exact hi)⟩
    · rw [Function.update_of_ne hji] at hj
      rw [List.getElem?_set_ne (Ne.symm hji), List.getElem?_set_ne (Ne.symm hji)]
      exact hm.entry hj
  old := by
    intro j hj
    by_cases hji : j = i
    · rw [hji, Function.update_self] at hj
      cases hj
    · rw [Function.update_of_ne hji] at hj
      exact hm.old j hj
  keysLength := by simpa using hm.keysLength
  valsLength := by simpa using hm.valsLength
  le := hm.le

/-- The memory when an entry has been taken out of slot `i`: its old flags say so. -/
theorem Moves.take (hm : Moves n h newFlags c) (hold : (c i).isOld = true) :
    ∃ flags', acSetIsDelTrue h.flags i = .ok flags' ∧
      (∀ j < h.nBuckets, ∃ e d, flagBits flags' j = some (e, d) ∧
        (e || d) = !(j ≠ i && (c j).isOld)) := by
  have hi := hm.old i hold
  obtain ⟨e, d, hbits, _⟩ := hm.oldBits i hi
  obtain ⟨flags', hrun, _, hflags⟩ := acSetIsDelTrue_eq hbits
  refine ⟨flags', hrun, fun j hj => ?_⟩
  by_cases hji : j = i
  · exact ⟨e, true, by rw [hflags, if_pos hji], by simp [hji]⟩
  · obtain ⟨e', d', hbits', hed⟩ := hm.oldBits j hj
    exact ⟨e', d', by rw [hflags, if_neg hji, hbits'], by simp [hji, hed]⟩

theorem write_eq {α : Type} {a : Cells α} (hi : i < a.cells.length) (x : α) :
    a.write Fault.bounds i x = .ok { cells := a.cells.set i (some x) } :=
  if_pos hi

/-- Moving an entry ends, and so do the moves of the entries that it kicks out: the new table gets
one entry more than are left of the old one. -/
theorem moveEntry_spec {E : K → V → Prop} (hn : n ∈ acSizes) (hne : n ≠ 0) :
    ∀ (fuel : Nat) {h : KHash K V} {newFlags : List (BitVec 32)} {c : Nat → Moving K V} {key : K}
      {val : V}, Moves n h newFlags c → Rehash (bucketSeq hash n) E c (some (key, val)) →
      Moving.count n c < n → Moving.oldCount n c < fuel →
      ∃ h' newFlags' c', moveEntry hash n fuel h newFlags key val = .ok (h', newFlags') ∧
        Moves n h' newFlags' c' ∧ Rehash (bucketSeq hash n) E c' none ∧
        Moving.count n c' = Moving.count n c + 1 ∧ SameCounters h h' ∧
        ∀ i, (c i).isOld = false → (c' i).isOld = false := by
  have hprobe := probeSeq_bucketSeq hash hn hne
  intro fuel
  induction fuel with
  | zero =>
      intro h newFlags c key val _ _ _ hfuel
      omega
  | succ fuel ih =>
      intro h newFlags c key val hm hr hroom hfuel
      obtain ⟨N, hN, hsite, hbefore⟩ := exists_site hash hn hne key hroom
      have hrunSite := moveSite_eq hm hn hne key hsite hbefore (n + 1) 0 (by omega) (by omega)
      have hfirst : bucketSeq hash n key 0 = (hash key).toNat % n := doubleHash_zero _ _
      rw [hfirst] at hrunSite
      have hx := hprobe.lt key N
      have hbits : flagBits newFlags (bucketSeq hash n key N) = some (true, false) := by
        rw [hm.newBits _ hx, hsite]
        rfl
      obtain ⟨newFlags', hrunNew, _, hnew⟩ := acSetIsEmptyFalse_eq hbits
      have hput := hr.put hbefore hsite
      have hwriteK := write_eq (a := h.keys) (by rw [hm.keysLength]; exact hx) key
      have hwriteV := write_eq (a := h.vals) (by rw [hm.valsLength]; exact hx) val
      cases hc : c (bucketSeq hash n key N) with
      | moved k' v' =>
          rw [hc] at hsite
          cases hsite
      | free =>
          have hdone : (c (bucketSeq hash n key N)).isOld = false := by
            rw [hc]
            rfl
          simp only [moveEntry, hrunSite, hrunNew, hm.isKicked, hdone, Bool.false_eq_true, if_false,
            hwriteK, hwriteV, ok_bind]
          rw [hc] at hput
          refine ⟨_, _, Function.update c (bucketSeq hash n key N) (.moved key val), rfl,
            hm.put hx key val hnew ?_, hput, Moving.count_put_free hx hc, ⟨rfl, rfl⟩, ?_⟩
          · intro j hj
            obtain ⟨e, d, hbits', hed⟩ := hm.oldBits j hj
            refine ⟨e, d, hbits', ?_⟩
            by_cases hji : j = bucketSeq hash n key N
            · rw [hji, hdone] at hed
              rw [hji, Function.update_self, hed]
              rfl
            · rw [Function.update_of_ne hji, hed]
          · intro i hi
            by_cases hix : i = bucketSeq hash n key N
            · rw [hix, Function.update_self]
              rfl
            · rw [Function.update_of_ne hix, hi]
      | old k' v' =>
          have hold : (c (bucketSeq hash n key N)).isOld = true := by
            rw [hc]
            rfl
          obtain ⟨hkey, hval⟩ := hm.entry (i := bucketSeq hash n key N) (by rw [hc]; rfl)
          obtain ⟨flags', hrunDel, hflags⟩ := hm.take hold
          simp only [moveEntry, hrunSite, hrunNew, hm.isKicked, hold, if_true, read_of_cell hkey,
            read_of_cell hval, hwriteK, hwriteV, hrunDel, ok_bind]
          -- The slot was taken from the old table, so one less is left of it.
          have hcount := Moving.count_put_old (k := key) (v := val) hx hc
          have holdCount := Moving.oldCount_put_old (k := key) (v := val) hx hc
          rw [hc] at hput
          have hbits' : ∀ j < h.nBuckets, ∃ e d, flagBits flags' j = some (e, d) ∧ (e || d) =
              !(Function.update c (bucketSeq hash n key N) (.moved key val) j).isOld := by
            intro j hj
            obtain ⟨e, d, hbits', hed⟩ := hflags j hj
            refine ⟨e, d, hbits', ?_⟩
            by_cases hji : j = bucketSeq hash n key N
            · rw [hji, Function.update_self, hed, hji]
              simp [Moving.isOld]
            · rw [Function.update_of_ne hji, hed]
              simp [hji]
          obtain ⟨h', nf', c', hrun, hm'', hr', hcount', hsame, hkeep⟩ :=
            ih (hm.put hx key val hnew hbits') hput (by omega) (by omega)
          refine ⟨h', nf', c', hrun, hm'', hr', by omega, ⟨hsame.nBuckets, hsame.size⟩, ?_⟩
          intro i hi
          refine hkeep i ?_
          by_cases hix : i = bucketSeq hash n key N
          · rw [hix, Function.update_self]
            rfl
          · rw [Function.update_of_ne hix, hi]

/-- The memory when an entry has been taken out to be moved. -/
theorem Moves.taken (hm : Moves n h newFlags c) (hold : (c i).isOld = true)
    {flags' : List (BitVec 32)}
    (hbits : ∀ j < h.nBuckets, ∃ e d, flagBits flags' j = some (e, d) ∧
      (e || d) = !(j ≠ i && (c j).isOld)) :
    Moves n { h with flags := flags' } newFlags (Function.update c i .free) where
  newBits := by
    intro j hj
    rw [hm.newBits j hj]
    by_cases hji : j = i
    · rw [hji, Function.update_self]
      cases hc : c i <;> simp [hc, Moving.isOld, Moving.isMoved] at hold ⊢
    · rw [Function.update_of_ne hji]
  oldBits := by
    intro j hj
    obtain ⟨e, d, hb, hed⟩ := hbits j hj
    refine ⟨e, d, hb, ?_⟩
    by_cases hji : j = i
    · rw [hed, hji, Function.update_self]
      simp [Moving.isOld]
    · rw [hed, Function.update_of_ne hji]
      simp [hji]
  entry := by
    intro j k v hj
    by_cases hji : j = i
    · rw [hji, Function.update_self] at hj
      cases hj
    · rw [Function.update_of_ne hji] at hj
      exact hm.entry hj
  old := by
    intro j hj
    by_cases hji : j = i
    · rw [hji, Function.update_self] at hj
      cases hj
    · rw [Function.update_of_ne hji] at hj
      exact hm.old j hj
  keysLength := hm.keysLength
  valsLength := hm.valsLength
  le := hm.le

theorem Moves.oldCount_le (hm : Moves n h newFlags c) : Moving.oldCount n c ≤ h.nBuckets := by
  have hsub : ((Finset.range n).filter fun i => (c i).isOld = true) ⊆ Finset.range h.nBuckets := by
    intro i hi
    exact Finset.mem_range.2 (hm.old i (Finset.mem_filter.1 hi).2)
  simpa [Moving.oldCount, slotCount] using Finset.card_le_card hsub

/-- A round of the loop over the old buckets leaves nothing to be moved in its bucket. -/
theorem moveBucket_spec {E : K → V → Prop} (hn : n ∈ acSizes) (hne : n ≠ 0)
    (hm : Moves n h newFlags c) (hr : Rehash (bucketSeq hash n) E c none)
    (hroom : Moving.count n c ≤ n) {j : Nat} (hj : j < h.nBuckets) :
    ∃ h' newFlags' c', moveBucket hash n (h, newFlags) j = .ok (h', newFlags') ∧
      Moves n h' newFlags' c' ∧ Rehash (bucketSeq hash n) E c' none ∧
      Moving.count n c' = Moving.count n c ∧ SameCounters h h' ∧ (c' j).isOld = false ∧
      ∀ i, (c i).isOld = false → (c' i).isOld = false := by
  simp only [moveBucket, hm.isEither hj, ok_bind]
  cases hc : c j with
  | free => exact ⟨h, newFlags, c, rfl, hm, hr, rfl, ⟨rfl, rfl⟩, by rw [hc]; rfl, fun _ => id⟩
  | moved k v => exact ⟨h, newFlags, c, rfl, hm, hr, rfl, ⟨rfl, rfl⟩, by rw [hc]; rfl, fun _ => id⟩
  | old k v =>
      have hold : (c j).isOld = true := by
        rw [hc]
        rfl
      have hlt : j < n := Nat.lt_of_lt_of_le hj hm.le
      obtain ⟨hkey, hval⟩ := hm.entry (i := j) (by rw [hc]; rfl)
      obtain ⟨flags', hrunDel, hflags⟩ := hm.take hold
      have hm' := hm.taken hold hflags
      have hcount := Moving.count_take hlt hc
      have hold' := hm.oldCount_le
      have holdCount := Moving.oldCount_take hlt hc
      obtain ⟨h', nf', c', hrun, hm'', hr', hcount', hsame, hkeep⟩ :=
        moveEntry_spec hn hne (h.nBuckets + 1) hm' (hr.take hc) (by omega) (by omega)
      refine ⟨h', nf', c', ?_, hm'', hr', by omega, ⟨hsame.nBuckets, hsame.size⟩, ?_, ?_⟩
      · have hnot : (!(Moving.old k v).isOld) = false := rfl
        rw [hnot, if_neg (by simp), read_of_cell hkey, ok_bind, read_of_cell hval, ok_bind, hrunDel,
          ok_bind, hrun]
      · exact hkeep j (by rw [Function.update_self]; rfl)
      · intro i hi
        refine hkeep i ?_
        by_cases hij : i = j
        · rw [hij, Function.update_self]
          rfl
        · rw [Function.update_of_ne hij, hi]

/-- The loop over the old buckets moves everything. -/
theorem moveBuckets_spec {E : K → V → Prop} (hn : n ∈ acSizes) (hne : n ≠ 0)
    (hm : Moves n h newFlags c) (hr : Rehash (bucketSeq hash n) E c none)
    (hroom : Moving.count n c ≤ n) :
    ∃ h' newFlags' c', (List.range h.nBuckets).foldlM (moveBucket hash n) (h, newFlags) =
        .ok (h', newFlags') ∧
      Moves n h' newFlags' c' ∧ Rehash (bucketSeq hash n) E c' none ∧
      Moving.count n c' = Moving.count n c ∧ SameCounters h h' ∧ ∀ i, (c' i).isOld = false := by
  obtain ⟨⟨h', nf'⟩, hrun, c', hm', hr', hcount, hsame, hdone⟩ :=
    foldlM_range_ok (f := moveBucket hash n) (n := h.nBuckets) (s := (h, newFlags))
      (fun j r => ∃ c', Moves n r.1 r.2 c' ∧ Rehash (bucketSeq hash n) E c' none ∧
        Moving.count n c' = Moving.count n c ∧ SameCounters h r.1 ∧ ∀ i < j, (c' i).isOld = false)
      ⟨c, hm, hr, rfl, ⟨rfl, rfl⟩, by simp⟩
      (by
        rintro j hj ⟨h₁, nf₁⟩ ⟨c₁, hm₁, hr₁, hcount₁, hsame₁, hdone₁⟩
        obtain ⟨h₂, nf₂, c₂, hrun, hm₂, hr₂, hcount₂, hsame₂, hj₂, hkeep⟩ :=
          moveBucket_spec hn hne hm₁ hr₁ (by omega) (by rw [hsame₁.nBuckets]; exact hj)
        refine ⟨(h₂, nf₂), hrun, c₂, hm₂, hr₂, hcount₂.trans hcount₁, hsame₁.trans hsame₂, ?_⟩
        intro i hi
        rcases Nat.lt_succ_iff_lt_or_eq.1 hi with hlt | rfl
        · exact hkeep i (hdone₁ i hlt)
        · exact hj₂)
  refine ⟨h', nf', c', hrun, hm', hr', hcount, hsame, fun i => ?_⟩
  cases hi : (c' i).isOld with
  | false => rfl
  | true =>
      have hlt := hm'.old i hi
      rw [hsame.nBuckets] at hlt
      rw [← hi, hdone i hlt]

end Moving

/-! ## Tables -/

/-- A table between two operations: its memory, its entries and its counters. -/
structure TableOk (hash : K → UInt32) (h : KHash K V) (s : Nat → Slot K V) : Prop where
  sized : h.nBuckets ∈ acSizes
  stores : Stores h s
  probed : Probed h.nBuckets (bucketSeq hash h.nBuckets) s
  size : h.size = slotCount h.nBuckets (fun x : Slot K V => x.isLive = true) s
  occupied : h.nOccupied = slotCount h.nBuckets (fun x : Slot K V => x.isEmpty = false) s
  upper : h.upperBound = acUpperBound h.nBuckets
  room : h.nOccupied ≤ h.upperBound

section Tables

variable {hash : K → UInt32} {h : KHash K V} {s : Nat → Slot K V}

theorem TableOk.size_le (ht : TableOk hash h s) : h.size ≤ h.nOccupied := by
  rw [ht.size, ht.occupied]
  refine Finset.card_le_card fun i hi => ?_
  obtain ⟨hi, hlive⟩ := Finset.mem_filter.1 hi
  refine Finset.mem_filter.2 ⟨hi, ?_⟩
  cases hs : s i <;> simp [hs, Slot.isLive, Slot.isEmpty] at hlive ⊢

/-- There is always an empty slot, at which a search ends. -/
theorem TableOk.exists_empty (ht : TableOk hash h s) (hne : h.nBuckets ≠ 0) :
    ∃ i < h.nBuckets, s i = .empty := by
  have hroom := ht.room
  have h3 := (acSizes_bounds _ ht.sized hne).1
  have hlt : slotCount h.nBuckets (fun x : Slot K V => x.isEmpty = false) s < h.nBuckets := by
    rw [ht.upper, acUpperBound, ht.occupied] at hroom
    omega
  obtain ⟨i, hi, hempty⟩ := slotCount_lt_iff.1 hlt
  refine ⟨i, hi, ?_⟩
  cases hs : s i <;> simp [hs, Slot.isEmpty] at hempty
  rfl

theorem khRealloc_cells {α : Type} (a : Cells α) {n : Nat} (hn : a.cells.length ≤ n) :
    (khRealloc a n).cells = a.cells ++ List.replicate (n - a.cells.length) none := by
  rw [khRealloc, List.take_of_length_le hn]

theorem getElem?_khRealloc {α : Type} {a : Cells α} {n i : Nat} {x : Option α}
    (hn : a.cells.length ≤ n) (hi : a.cells[i]? = some x) : (khRealloc a n).cells[i]? = some x := by
  rw [khRealloc_cells a hn, List.getElem?_append_left (List.getElem?_eq_some_iff.1 hi).1, hi]

theorem length_khRealloc {α : Type} {a : Cells α} {n : Nat} (hn : a.cells.length ≤ n) :
    (khRealloc a n).cells.length = n := by
  rw [khRealloc_cells a hn, List.length_append, List.length_replicate]
  omega

/-- The memory before the first move, with arrays that have room for `n` entries. -/
theorem Stores.moves (hs : Stores h s) {n : Nat} (hle : h.nBuckets ≤ n) {keys : Cells K}
    {vals : Cells V} (hkeys : keys.cells.length = n) (hvals : vals.cells.length = n)
    (hkeep : ∀ (i : Nat) k v, h.keys.cells[i]? = some (some k) →
      h.vals.cells[i]? = some (some v) →
      keys.cells[i]? = some (some k) ∧ vals.cells[i]? = some (some v)) :
    Moves n { h with keys := keys, vals := vals } (acNewFlags n)
      (fun i => if i < h.nBuckets then .ofSlot (s i) else .free) where
  newBits := by
    intro i hi
    rw [flagBits_acNewFlags hi]
    by_cases hlt : i < h.nBuckets
    · rw [if_pos hlt]
      cases s i <;> rfl
    · rw [if_neg hlt]
      rfl
  oldBits := by
    intro i hi
    have hi' : i < h.nBuckets := hi
    obtain ⟨d, hbits, hd⟩ := hs.bits i hi
    refine ⟨_, d, hbits, ?_⟩
    rw [if_pos hi']
    cases hx : s i with
    | empty => rfl
    | deleted =>
        rw [hx] at hd
        rw [hd rfl]
        rfl
    | live k v =>
        rw [hx] at hd
        rw [hd rfl]
        rfl
  entry := by
    intro i k v hi
    by_cases hlt : i < h.nBuckets
    · rw [if_pos hlt] at hi
      have hlive : s i = .live k v := by
        cases hx : s i <;> rw [hx] at hi <;> cases hi
        rfl
      obtain ⟨hk, hv⟩ := hs.entry hlt hlive
      exact hkeep i k v hk hv
    · rw [if_neg hlt] at hi
      cases hi
  old := by
    intro i hi
    by_contra hlt
    have hno : ¬i < h.nBuckets := hlt
    rw [if_neg hno] at hi
    cases hi
  keysLength := hkeys
  valsLength := hvals
  le := hle

/-- The memory when everything has been moved. -/
theorem Moves.stores {n : Nat} {newFlags : List (BitVec 32)} {c : Nat → Moving K V}
    (hm : Moves n h newFlags c) (hold : ∀ i, (c i).isOld = false) (size occupied upper : Nat) :
    Stores
      { h with
        nBuckets := n, size := size, nOccupied := occupied, upperBound := upper, flags := newFlags }
      (fun i => (c i).settled) where
  bits := by
    intro i hi
    refine ⟨false, ?_, ?_⟩
    · rw [Moving.isEmpty_settled]
      exact hm.newBits i hi
    · intro hfull
      have hi := hold i
      cases hc : c i <;> simp [hc, Moving.settled, Moving.isOld, Slot.isEmpty, Slot.isLive]
        at hfull hi ⊢
  entry := by
    intro i k v _ hi
    rw [Moving.settled_eq_live_iff] at hi
    exact hm.entry (by rw [hi]; rfl)
  keysLength := hm.keysLength
  valsLength := hm.valsLength

/-- Growing a table, or making one of the same size without deleted slots, keeps its entries. -/
theorem khResize_spec (ht : TableOk hash h s) {want n : Nat} (hnext : nextPrime want = .ok n)
    (hn : n ∈ acSizes) (hne : n ≠ 0) (hle : h.nBuckets ≤ n) (hroom : h.size < acUpperBound n) :
    ∃ h' s', khResize hash h want = .ok h' ∧ TableOk hash h' s' ∧ h'.nBuckets = n ∧
      h'.size = h.size ∧ h'.nOccupied = h.size ∧
      ∀ k v, HasEntry n s' k v ↔ HasEntry h.nBuckets s k v := by
  have h3 := (acSizes_bounds n hn hne).1
  have hcount := Moving.count_ofSlot hle s
  have hkeysLe : h.keys.cells.length ≤ n := by
    rw [ht.stores.keysLength]
    exact hle
  have hvalsLe : h.vals.cells.length ≤ n := by
    rw [ht.stores.valsLength]
    exact hle
  -- Whether the arrays grow or have the size already, they have room for `n` entries.
  obtain ⟨h₀, hh₀, hm, hsame⟩ : ∃ h₀ : KHash K V,
      (if h.nBuckets < n then
          { h with keys := khRealloc h.keys n, vals := khRealloc h.vals n } else h) = h₀ ∧
        Moves n h₀ (acNewFlags n) (fun i => if i < h.nBuckets then .ofSlot (s i) else .free) ∧
        SameCounters h h₀ := by
    by_cases hlt : h.nBuckets < n
    · refine ⟨_, if_pos hlt, ht.stores.moves hle (length_khRealloc hkeysLe)
        (length_khRealloc hvalsLe) ?_, ⟨rfl, rfl⟩⟩
      intro i k v hk hv
      exact ⟨getElem?_khRealloc hkeysLe hk, getElem?_khRealloc hvalsLe hv⟩
    · have heq : h.nBuckets = n := by omega
      exact ⟨h, if_neg hlt, ht.stores.moves hle (ht.stores.keysLength.trans heq)
        (ht.stores.valsLength.trans heq) (fun _ _ _ hk hv => ⟨hk, hv⟩), ⟨rfl, rfl⟩⟩
  have hcountLe : Moving.count n
      (fun i => if i < h.nBuckets then Moving.ofSlot (s i) else .free) ≤ n := by
    rw [hcount, ← ht.size]
    rw [acUpperBound] at hroom
    omega
  obtain ⟨h₁, nf, c, hrun, hm₁, hr₁, hcount₁, hsame₁, hold⟩ :=
    moveBuckets_spec hn hne hm (Rehash.start ht.probed) hcountLe
  obtain ⟨hprobed, hholds⟩ := hr₁.finish (probeSeq_bucketSeq hash hn hne) hold
  have hsize : h₁.size = h.size := (hsame.trans hsame₁).size
  have hbuckets : ¬n < h₁.nBuckets := by
    rw [(hsame.trans hsame₁).nBuckets]
    omega
  have htotal : Moving.count n c = h.size := by rw [hcount₁, hcount, ht.size]
  obtain ⟨hlive, hfull⟩ := Moving.count_settled (n := n) hold
  refine ⟨_, fun i => (c i).settled, ?_, ⟨hn, hm₁.stores hold h₁.size h₁.size (acUpperBound n),
    hprobed, ?_, ?_, rfl, ?_⟩, rfl, hsize, hsize, hholds⟩
  · have hgrow : ¬acUpperBound n ≤ h.size := by omega
    rw [khResize, hnext, ok_bind, if_neg hgrow]
    simp only [hh₀, hrun, ok_bind, if_neg hbuckets]
  · show h₁.size = slotCount n _ _
    rw [hlive, htotal, hsize]
  · show h₁.size = slotCount n _ _
    rw [hfull, htotal, hsize]
  · show h₁.size ≤ acUpperBound n
    omega

/-! ## Putting -/

theorem nextPrime_pred : ∀ n ∈ acSizes, n ≠ 0 → nextPrime (n - 1) = .ok n := by
  decide +kernel

theorem nextPrime_succ : ∀ n ∈ acSizes, n < 1610612741 →
    ∃ n' ∈ acSizes, nextPrime ((n + 1) % 2 ^ 32) = .ok n' ∧ n < n' ∧
      acUpperBound n < acUpperBound n' := by
  decide +kernel

/-- `kh_put` makes room for one more entry: in a larger table, or where half of the slots are not
live, in one of the same size. -/
theorem putRoom_spec (ht : TableOk hash h s) (hsmall : 2 * h.size < 1610612741) :
    ∃ h' s', putRoom hash h = .ok h' ∧ TableOk hash h' s' ∧ h'.nBuckets ≠ 0 ∧
      h'.nOccupied < h'.upperBound ∧ h'.size = h.size ∧
      ∀ k v, HasEntry h'.nBuckets s' k v ↔ HasEntry h.nBuckets s k v := by
  have hroom := ht.room
  have hsize := ht.size_le
  rw [putRoom]
  by_cases hfull : h.upperBound ≤ h.nOccupied
  · have hmul : h.size * 2 % 2 ^ 32 = h.size * 2 := Nat.mod_eq_of_lt (by omega)
    rw [if_pos hfull, hmul]
    by_cases hhalf : h.size * 2 < h.nBuckets
    · have hne : h.nBuckets ≠ 0 := by omega
      have hlt : h.size < acUpperBound h.nBuckets := by
        have h3 := (acSizes_bounds _ ht.sized hne).1
        rw [acUpperBound]
        omega
      obtain ⟨h', s', hrun, ht', hn', hsize', hocc, hholds⟩ :=
        khResize_spec ht (nextPrime_pred _ ht.sized hne) ht.sized hne (Nat.le_refl _) hlt
      rw [if_pos hhalf]
      refine ⟨h', s', hrun, ht', by rwa [hn'], ?_, hsize', by rwa [hn']⟩
      rw [ht'.upper, hn', hocc]
      exact hlt
    · obtain ⟨n', hmem, hnext, hlt, hupper⟩ := nextPrime_succ _ ht.sized (by omega)
      have hgrow : h.size < acUpperBound n' := by
        rw [ht.upper] at hroom
        omega
      obtain ⟨h', s', hrun, ht', hn', hsize', hocc, hholds⟩ :=
        khResize_spec ht hnext hmem (by omega) (Nat.le_of_lt hlt) hgrow
      rw [if_neg hhalf]
      refine ⟨h', s', hrun, ht', by omega, ?_, hsize', by rwa [hn']⟩
      rw [ht'.upper, hn', hocc]
      exact hgrow
  · rw [if_neg hfull]
    refine ⟨h, s, rfl, ht, ?_, Nat.lt_of_not_le hfull, rfl, fun _ _ => Iff.rfl⟩
    -- Without buckets there is no room.
    intro hzero
    rw [ht.upper, hzero] at hfull
    exact hfull (Nat.zero_le _)

/-- Assigning the key, the value and the flags of a slot. -/
theorem Stores.write (hs : Stores h s) {x : Nat} (hx : x < h.nBuckets) (k : K) (v : V)
    {flags' : List (BitVec 32)} (size occupied : Nat)
    (hflags : ∀ j, flagBits flags' j =
      if j = x then some (false, false) else flagBits h.flags j) :
    Stores
      { h with
        size := size
        nOccupied := occupied
        flags := flags'
        keys := { cells := h.keys.cells.set x (some k) }
        vals := { cells := h.vals.cells.set x (some v) } }
      (Function.update s x (.live k v)) where
  bits := by
    intro i hi
    by_cases hix : i = x
    · refine ⟨false, ?_, ?_⟩
      · rw [hflags, if_pos hix, hix, Function.update_self]
        rfl
      · intro _
        rw [hix, Function.update_self]
        rfl
    · rw [hflags, if_neg hix, Function.update_of_ne hix]
      exact hs.bits i hi
  entry := by
    intro i k' v' hi hlive
    by_cases hix : i = x
    · rw [hix, Function.update_self] at hlive
      cases hlive
      rw [hix]
      exact ⟨List.getElem?_set_self (by rw [hs.keysLength]; exact hx),
        List.getElem?_set_self (by rw [hs.valsLength]; exact hx)⟩
    · rw [Function.update_of_ne hix] at hlive
      rw [List.getElem?_set_ne (Ne.symm hix), List.getElem?_set_ne (Ne.symm hix)]
      exact hs.entry hi hlive
  keysLength := by simpa using hs.keysLength
  valsLength := by simpa using hs.valsLength

/-- A new entry in a slot that nobody uses. -/
theorem TableOk.place (ht : TableOk hash h s) (hlt : h.nOccupied < h.upperBound) {x : Nat}
    (hx : x < h.nBuckets) {key : K} (hfree : (s x).isLive = false)
    (habsent : ∀ v, ¬HasEntry h.nBuckets s key v)
    (hpath : ∃ l, bucketSeq hash h.nBuckets key l = x ∧
      ∀ l' < l, (s (bucketSeq hash h.nBuckets key l')).isEmpty = false)
    {flags' : List (BitVec 32)}
    (hflags : ∀ j, flagBits flags' j = if j = x then some (false, false) else flagBits h.flags j)
    (v : V) :
    ∃ s', TableOk hash
        { h with
          size := h.size + 1
          nOccupied := h.nOccupied + if (s x).isEmpty then 1 else 0
          flags := flags'
          keys := { cells := h.keys.cells.set x (some key) }
          vals := { cells := h.vals.cells.set x (some v) } } s' ∧
      ∀ k' v', HasEntry h.nBuckets s' k' v' ↔
        (k' = key ∧ v' = v) ∨ (k' ≠ key ∧ HasEntry h.nBuckets s k' v') := by
  obtain ⟨hprobed, hholds⟩ := ht.probed.place hx hfree habsent hpath v
  have hlive := slotCount_update (P := fun x : Slot K V => x.isLive = true) (s := s) hx
    (.live key v)
  have hfull := slotCount_update (P := fun x : Slot K V => x.isEmpty = false) (s := s) hx
    (.live key v)
  rw [← ht.size, if_neg (by simp [hfree])] at hlive
  rw [← ht.occupied] at hfull
  refine ⟨_, ⟨ht.sized, ht.stores.write hx key v _ _ hflags, hprobed, ?_, ?_, ht.upper, ?_⟩, ?_⟩
  · exact hlive.symm
  · show h.nOccupied + _ = slotCount h.nBuckets _ _
    have hkey : (Slot.live key v).isEmpty = false := rfl
    rw [if_pos hkey] at hfull
    cases hempty : (s x).isEmpty with
    | false =>
        rw [hempty, if_pos rfl] at hfull
        simp only [Bool.false_eq_true, if_false]
        omega
    | true =>
        rw [hempty, if_neg (by simp)] at hfull
        simp only [if_true]
        omega
  · show h.nOccupied + _ ≤ h.upperBound
    split <;> omega
  · intro k' v'
    rw [hholds]
    refine or_congr Iff.rfl ?_
    rw [iff_and_self]
    rintro h' rfl
    exact habsent v' h'

/-- A new value for a key that has a slot. -/
theorem TableOk.setVal (ht : TableOk hash h s) {x : Nat} (hx : x < h.nBuckets) {key : K} {v₀ : V}
    (hlive : s x = .live key v₀) (v : V) :
    ∃ s', TableOk hash { h with vals := { cells := h.vals.cells.set x (some v) } } s' ∧
      ∀ k' v', HasEntry h.nBuckets s' k' v' ↔
        (k' = key ∧ v' = v) ∨ (k' ≠ key ∧ HasEntry h.nBuckets s k' v') := by
  obtain ⟨hprobed, hholds⟩ := ht.probed.setVal hx hlive v
  have hcountLive := slotCount_update (P := fun x : Slot K V => x.isLive = true) (s := s) hx
    (.live key v)
  have hcountFull := slotCount_update (P := fun x : Slot K V => x.isEmpty = false) (s := s) hx
    (.live key v)
  rw [← ht.size, hlive] at hcountLive
  rw [← ht.occupied, hlive] at hcountFull
  have hflags : ∀ j, flagBits h.flags j =
      if j = x then some (false, false) else flagBits h.flags j := by
    intro j
    by_cases hjx : j = x
    · obtain ⟨d, hbits, hd⟩ := ht.stores.bits x hx
      rw [hlive] at hbits hd
      rw [if_pos hjx, hjx, hbits, hd rfl]
      rfl
    · rw [if_neg hjx]
  have hkeys : h.keys.cells.set x (some key) = h.keys.cells := by
    obtain ⟨hlt, hkey⟩ := List.getElem?_eq_some_iff.1 (ht.stores.entry hx hlive).1
    rw [← hkey, List.set_getElem_self]
  have hstores := ht.stores.write hx key v h.size h.nOccupied hflags
  rw [hkeys] at hstores
  refine ⟨_, ⟨ht.sized, hstores, hprobed, ?_, ?_, ht.upper, ht.room⟩, hholds⟩
  · simpa [Slot.isLive] using hcountLive.symm
  · simpa [Slot.isEmpty] using hcountFull.symm

/-- Whether the key is new, and for every value that is assigned to the slot afterwards, what the
table holds then. -/
theorem khPut_spec [DecidableEq K] (ht : TableOk hash h s) (hsmall : 2 * h.size < 1610612741)
    (key : K) :
    ∃ h' x ret, khPut hash h key = .ok (h', x, ret) ∧ x < h'.vals.cells.length ∧
      (ret = 0 ↔ ∃ v, HasEntry h.nBuckets s key v) ∧
      ∀ v, ∃ s', TableOk hash { h' with vals := { cells := h'.vals.cells.set x (some v) } } s' ∧
        ∀ k' v', HasEntry h'.nBuckets s' k' v' ↔
          (k' = key ∧ v' = v) ∨ (k' ≠ key ∧ HasEntry h.nBuckets s k' v') := by
  obtain ⟨h₁, s₁, hrun, ht₁, hne, hlt, _, hholds⟩ := putRoom_spec ht hsmall
  obtain ⟨x, hx, hsite, hfound⟩ :=
    putSite_spec ht₁.stores ht₁.sized hne ht₁.probed (ht₁.exists_empty hne) key
  have hle := (acSizes_bounds _ ht₁.sized hne).2
  have hsize := ht₁.size_le
  have hroom : h₁.upperBound ≤ h₁.nBuckets := by
    have h3 := (acSizes_bounds _ ht₁.sized hne).1
    rw [ht₁.upper, acUpperBound]
    omega
  have hxv : x < h₁.vals.cells.length := by
    rw [ht₁.stores.valsLength]
    exact hx
  simp only [← hholds]
  simp only [khPut, hrun, hsite, ok_bind, ht₁.stores.isEmpty hx]
  cases hfound with
  | live v₀ hlive =>
      have hempty : (s₁ x).isEmpty = false := by rw [hlive]; rfl
      have hdel : acIsDel h₁.flags x = .ok false := by
        rw [ht₁.stores.isDel hx hempty, hlive]
        rfl
      refine ⟨h₁, x, 0, ?_, hxv, iff_of_true rfl ⟨v₀, x, hx, hlive⟩, ht₁.setVal hx hlive⟩
      simp only [hempty, Bool.false_eq_true, if_false, hdel, ok_bind]
  | free hfree habsent hpath =>
      have hwrite := write_eq (a := h₁.keys) (by rw [ht₁.stores.keysLength]; exact hx) key
      obtain ⟨d, hbits, _⟩ := ht₁.stores.bits x hx
      obtain ⟨flags', hclear, _, hflags⟩ := acSetIsBothFalse_eq hbits
      have hplace := ht₁.place hlt hx hfree habsent hpath hflags
      have hsize' : (h₁.size + 1) % 2 ^ 32 = h₁.size + 1 := Nat.mod_eq_of_lt (by omega)
      have hocc' : (h₁.nOccupied + 1) % 2 ^ 32 = h₁.nOccupied + 1 := Nat.mod_eq_of_lt (by omega)
      have hnone : ¬∃ v, HasEntry h₁.nBuckets s₁ key v := fun ⟨v, hv⟩ => habsent v hv
      cases hempty : (s₁ x).isEmpty with
      | true =>
          simp only [hempty, if_true] at hplace
          refine ⟨{ h₁ with
              size := h₁.size + 1, nOccupied := h₁.nOccupied + 1, flags := flags'
              keys := { cells := h₁.keys.cells.set x (some key) } }, x, 1, ?_, hxv,
            iff_of_false (by decide) hnone, hplace⟩
          simp only [if_true, hwrite, hclear, ok_bind, hsize', hocc']
      | false =>
          -- A deleted slot counts as occupied already.
          have hdel : acIsDel h₁.flags x = .ok true := by
            rw [ht₁.stores.isDel hx hempty, hfree]
            rfl
          simp only [hempty, Bool.false_eq_true, if_false, Nat.add_zero] at hplace
          refine ⟨{ h₁ with
              size := h₁.size + 1, flags := flags'
              keys := { cells := h₁.keys.cells.set x (some key) } }, x, 2, ?_, hxv,
            iff_of_false (by decide) hnone, hplace⟩
          simp only [Bool.false_eq_true, if_false, hdel, ok_bind, if_true, hwrite, hclear, hsize']

/-! ## Deleting -/

theorem khDel_spec (ht : TableOk hash h s) {x : Nat} (hx : x < h.nBuckets) {key : K} {v : V}
    (hlive : s x = .live key v) :
    ∃ h' s', khDel h x = .ok h' ∧ TableOk hash h' s' ∧ h'.nBuckets = h.nBuckets ∧
      ∀ k' v', HasEntry h.nBuckets s' k' v' ↔ k' ≠ key ∧ HasEntry h.nBuckets s k' v' := by
  obtain ⟨hprobed, hholds⟩ := ht.probed.remove hx hlive
  have hcountLive := slotCount_update (P := fun x : Slot K V => x.isLive = true) (s := s) hx
    .deleted
  have hcountFull := slotCount_update (P := fun x : Slot K V => x.isEmpty = false) (s := s) hx
    .deleted
  rw [← ht.size, hlive] at hcountLive
  rw [← ht.occupied, hlive] at hcountFull
  have hkey : (Slot.live key v).isLive = true := rfl
  have hgone : ¬(Slot.deleted : Slot K V).isLive = true := Bool.false_ne_true
  rw [if_pos hkey, if_neg hgone] at hcountLive
  obtain ⟨d, hbits, _⟩ := ht.stores.bits x hx
  obtain ⟨flags', hset, _, hflags⟩ := acSetIsDelTrue_eq hbits
  have hle := acSizes_bounds _ ht.sized (by omega)
  have hcount := ht.size_le
  have hroom := ht.room
  have hsize : (h.size + 2 ^ 32 - 1) % 2 ^ 32 = h.size - 1 := by
    have hsmall : h.upperBound ≤ h.nBuckets := by
      rw [ht.upper, acUpperBound]
      omega
    have hpos : 1 ≤ h.size := by omega
    have hdiff : h.size + 2 ^ 32 - 1 = h.size - 1 + 2 ^ 32 := by omega
    rw [hdiff, Nat.add_mod_right, Nat.mod_eq_of_lt (by omega)]
  refine ⟨{ h with flags := flags', size := h.size - 1 }, Function.update s x .deleted, ?_,
    ⟨ht.sized, ⟨?_, ?_, ht.stores.keysLength, ht.stores.valsLength⟩, hprobed, ?_, ?_, ht.upper,
      ht.room⟩, rfl, hholds⟩
  · have hlive' : (s x).isLive = true := by rw [hlive]; rfl
    simp only [khDel, Nat.ne_of_lt hx, ne_eq, not_false_iff, if_true, ht.stores.isEither hx, hlive',
      Bool.not_true, Bool.false_eq_true, if_false, ok_bind, hset, hsize]
  · intro i hi
    by_cases hix : i = x
    · refine ⟨true, ?_, ?_⟩
      · rw [hflags, if_pos hix, hix, Function.update_self, hlive]
        rfl
      · intro _
        rw [hix, Function.update_self]
        rfl
    · rw [hflags, if_neg hix, Function.update_of_ne hix]
      exact ht.stores.bits i hi
  · intro i k' v' hi hi'
    have hix : i ≠ x := by
      rintro rfl
      rw [Function.update_self] at hi'
      cases hi'
    rw [Function.update_of_ne hix] at hi'
    exact ht.stores.entry hi hi'
  · show h.size - 1 = slotCount h.nBuckets _ _
    omega
  · simpa [Slot.isEmpty] using hcountFull.symm

end Tables

end Keys

end KHash
end Secondary
