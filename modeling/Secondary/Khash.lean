import Mathlib.Algebra.Group.Nat.Defs
import Secondary.Fault
import Secondary.Lib.Cells

/-!
# Khash — `khash.h`, hash tables with open addressing

A table has `nBuckets` slots, with two bits for each slot in `flags`: whether it is empty, and
whether its entry was deleted.  `khint_t` has 32 bits; its values are naturals, and sums of them are
taken modulo `2 ^ 32`.  With no buckets there are no flags either, so a remainder by zero is
followed by a read outside of the flags.
-/

namespace Secondary

open Lib

structure KHash (K V : Type) where
  nBuckets : Nat
  size : Nat
  nOccupied : Nat
  upperBound : Nat
  flags : List (BitVec 32)
  keys : Cells K
  vals : Cells V

namespace KHash

variable {K V : Type}

/-- `__ac_prime_list` -/
def acPrimeList : List Nat :=
  [ 0, 3, 11, 23, 53, 97, 193, 389, 769, 1543, 3079, 6151, 12289, 24593, 49157, 98317, 196613,
    393241, 786433, 1572869, 3145739, 6291469, 12582917, 25165843, 50331653, 100663319, 201326611,
    402653189, 805306457, 1610612741, 3221225473, 4294967291 ]

/-! ## Flags -/

/-- The word with the bits of slot `i`. -/
def flagWord (flags : List (BitVec 32)) (i : Nat) : Exec (BitVec 32) :=
  orFault flags[i / 16]? .bounds

/-- `(flag[i>>4]>>((i&0xfU)<<1))&mask` -/
def acFlag (mask : BitVec 32) (flags : List (BitVec 32)) (i : Nat) : Exec Bool := do
  let w ← flagWord flags i
  .ok (decide ((w >>> (2 * (i % 16))) &&& mask ≠ 0))

/-- `__ac_isempty` -/
def acIsEmpty : List (BitVec 32) → Nat → Exec Bool :=
  acFlag 2

/-- `__ac_isdel` -/
def acIsDel : List (BitVec 32) → Nat → Exec Bool :=
  acFlag 1

/-- `__ac_iseither` -/
def acIsEither : List (BitVec 32) → Nat → Exec Bool :=
  acFlag 3

/-- `flag[i>>4]&=~(mask<<((i&0xfU)<<1))` -/
def acClear (mask : BitVec 32) (flags : List (BitVec 32)) (i : Nat) : Exec (List (BitVec 32)) := do
  let w ← flagWord flags i
  .ok (flags.set (i / 16) (w &&& ~~~(mask <<< (2 * (i % 16)))))

/-- `__ac_set_isempty_false` -/
def acSetIsEmptyFalse : List (BitVec 32) → Nat → Exec (List (BitVec 32)) :=
  acClear 2

/-- `__ac_set_isboth_false` -/
def acSetIsBothFalse : List (BitVec 32) → Nat → Exec (List (BitVec 32)) :=
  acClear 3

/-- `__ac_set_isdel_true` -/
def acSetIsDelTrue (flags : List (BitVec 32)) (i : Nat) : Exec (List (BitVec 32)) := do
  let w ← flagWord flags i
  .ok (flags.set (i / 16) (w ||| ((1 : BitVec 32) <<< (2 * (i % 16)))))

/-- `malloc` and `memset(new_flags, 0xaa, ..)`: all slots are empty. -/
def acNewFlags (nBuckets : Nat) : List (BitVec 32) :=
  List.replicate (nBuckets / 16 + 1) 0xaaaaaaaa

/-- `(khint_t)(n_buckets * __ac_HASH_UPPER + 0.5)`, computed in `double`.  For the sizes in the list
the sum is not closer than `1 / 100` to an integer, so the rounding of `0.77` does not matter. -/
def acUpperBound (nBuckets : Nat) : Nat :=
  (77 * nBuckets + 50) / 100

/-! ## Searching -/

/-- `kh_init` -/
def khInit : KHash K V where
  nBuckets := 0
  size := 0
  nOccupied := 0
  upperBound := 0
  flags := []
  keys := { cells := [] }
  vals := { cells := [] }

/-- `if (i + inc >= n_buckets) i = i + inc - n_buckets; else i += inc;` -/
def nextBucket (nBuckets inc i : Nat) : Nat :=
  let sum := (i + inc) % 2 ^ 32
  if nBuckets ≤ sum then (sum + 2 ^ 32 - nBuckets) % 2 ^ 32 else sum

section Keys

variable [DecidableEq K] (hash : K → UInt32)

/-- Whether the search for `key` goes on behind slot `i`. -/
def passes (h : KHash K V) (key : K) (i : Nat) : Exec Bool := do
  if ← acIsEmpty h.flags i then
    .ok false
  else if ← acIsDel h.flags i then
    .ok true
  else
    let k ← h.keys.read .bounds .unset i
    .ok (decide (k ≠ key))

/-- The loop of `kh_get`. -/
def getLoop (h : KHash K V) (key : K) (inc last : Nat) : Nat → Nat → Exec Nat
  | 0, _ => .error .diverges
  | fuel + 1, i => do
      if ← h.passes key i then
        let i := nextBucket h.nBuckets inc i
        if i = last then .ok h.nBuckets else getLoop h key inc last fuel i
      else if ← acIsEither h.flags i then
        .ok h.nBuckets
      else
        .ok i

/-- `kh_get`; the result is `n_buckets` where the key is not found. -/
def khGet (h : KHash K V) (key : K) : Exec Nat :=
  if h.nBuckets ≠ 0 then
    let k := (hash key).toNat
    let i := k % h.nBuckets
    let inc := 1 + k % (h.nBuckets - 1)
    h.getLoop key inc i (h.nBuckets + 1) i
  else
    .ok 0

/-! ## Growing -/

/-- `while (__ac_prime_list[t] > new_n_buckets) --t;` -/
def primeIndex (newNBuckets : Nat) : Nat → Exec Nat
  | 0 => .ok 0
  | t + 1 => do
      let p ← orFault acPrimeList[t + 1]? .bounds
      if newNBuckets < p then primeIndex newNBuckets t else .ok (t + 1)

/-- The number of buckets that a table gets when it asks for `newNBuckets`. -/
def nextPrime (newNBuckets : Nat) : Exec Nat := do
  let t ← primeIndex newNBuckets 31
  orFault acPrimeList[t + 1]? .bounds

/-- `realloc`: the cells at the front keep what they hold. -/
def khRealloc {α : Type} (a : Cells α) (n : Nat) : Cells α where
  cells := a.cells.take n ++ List.replicate (n - a.cells.length) none

/-- `while (!__ac_isempty(new_flags, i))`: the slot that an entry is moved to. -/
def moveSite (newFlags : List (BitVec 32)) (newNBuckets inc : Nat) : Nat → Nat → Exec Nat
  | 0, _ => .error .diverges
  | fuel + 1, i => do
      if ← acIsEmpty newFlags i then
        .ok i
      else
        moveSite newFlags newNBuckets inc fuel (nextBucket newNBuckets inc i)

/-- Whether an entry that has not been moved is in slot `i`: `i < h->n_buckets &&
__ac_iseither(h->flags, i) == 0`. -/
def isKicked (h : KHash K V) (i : Nat) : Exec Bool := do
  if i < h.nBuckets then
    let either ← acIsEither h.flags i
    .ok (!either)
  else
    .ok false

/-- `while (1)`: moving one entry, and the entries that are kicked out by it.  Every entry is moved
once, so there are no more rounds than buckets. -/
def moveEntry (newNBuckets : Nat) :
    Nat → KHash K V → List (BitVec 32) → K → V → Exec (KHash K V × List (BitVec 32))
  | 0, _, _, _, _ => .error .diverges
  | fuel + 1, h, newFlags, key, val => do
      let k := (hash key).toNat
      let inc := 1 + k % (newNBuckets - 1)
      let i ← moveSite newFlags newNBuckets inc (newNBuckets + 1) (k % newNBuckets)
      let newFlags ← acSetIsEmptyFalse newFlags i
      if ← h.isKicked i then
        let key' ← h.keys.read .bounds .unset i
        let keys ← h.keys.write .bounds i key
        let val' ← h.vals.read .bounds .unset i
        let vals ← h.vals.write .bounds i val
        let flags ← acSetIsDelTrue h.flags i
        moveEntry newNBuckets fuel { h with flags := flags, keys := keys, vals := vals } newFlags
          key' val'
      else
        let keys ← h.keys.write .bounds i key
        let vals ← h.vals.write .bounds i val
        .ok ({ h with keys := keys, vals := vals }, newFlags)

/-- One round of the loop over the old buckets. -/
def moveBucket (newNBuckets : Nat) (r : KHash K V × List (BitVec 32)) (j : Nat) :
    Exec (KHash K V × List (BitVec 32)) := do
  if ← acIsEither r.1.flags j then
    .ok r
  else
    let key ← r.1.keys.read .bounds .unset j
    let val ← r.1.vals.read .bounds .unset j
    let flags ← acSetIsDelTrue r.1.flags j
    moveEntry hash newNBuckets (r.1.nBuckets + 1) { r.1 with flags := flags } r.2 key val

/-- `kh_resize` -/
def khResize (h : KHash K V) (newNBuckets : Nat) : Exec (KHash K V) := do
  let newNBuckets ← nextPrime newNBuckets
  if acUpperBound newNBuckets ≤ h.size then
    .ok h
  else
    let h :=
      if h.nBuckets < newNBuckets then
        { h with
          keys := khRealloc h.keys newNBuckets
          vals := khRealloc h.vals newNBuckets }
      else h
    let r ← (List.range h.nBuckets).foldlM (moveBucket hash newNBuckets) (h, acNewFlags newNBuckets)
    let h := r.1
    let h :=
      if newNBuckets < h.nBuckets then
        { h with
          keys := khRealloc h.keys newNBuckets
          vals := khRealloc h.vals newNBuckets }
      else h
    .ok
      { h with
        flags := r.2
        nBuckets := newNBuckets
        nOccupied := h.size
        upperBound := acUpperBound newNBuckets }

/-! ## Changing -/

/-- The loop of `kh_put`, with `i`, `site` and `x` behind it. -/
def putLoop (h : KHash K V) (key : K) (inc last : Nat) : Nat → Nat → Nat → Exec (Nat × Nat × Nat)
  | 0, _, _ => .error .diverges
  | fuel + 1, i, site => do
      if ← h.passes key i then
        let del ← acIsDel h.flags i
        let site := if del then i else site
        let i := nextBucket h.nBuckets inc i
        if i = last then .ok (i, site, site) else putLoop h key inc last fuel i site
      else
        .ok (i, site, h.nBuckets)

/-- The slot for `key`. -/
def putSite (h : KHash K V) (key : K) : Exec Nat := do
  let k := (hash key).toNat
  let i := k % h.nBuckets
  if ← acIsEmpty h.flags i then
    .ok i
  else
    let inc := 1 + k % (h.nBuckets - 1)
    let (i, site, x) ← h.putLoop key inc i (h.nBuckets + 1) i h.nBuckets
    if x = h.nBuckets then
      let empty ← acIsEmpty h.flags i
      if empty ∧ site ≠ h.nBuckets then .ok site else .ok i
    else
      .ok x

/-- The first half of `kh_put`: room for one more entry. -/
def putRoom (h : KHash K V) : Exec (KHash K V) :=
  if h.upperBound ≤ h.nOccupied then
    if h.size * 2 % 2 ^ 32 < h.nBuckets then
      khResize hash h (h.nBuckets - 1)
    else
      khResize hash h ((h.nBuckets + 1) % 2 ^ 32)
  else
    .ok h

/-- `kh_put`: the table, the slot of the key, and `*ret`. -/
def khPut (h : KHash K V) (key : K) : Exec (KHash K V × Nat × Int) := do
  let h ← putRoom hash h
  let x ← putSite hash h key
  if ← acIsEmpty h.flags x then
    let keys ← h.keys.write .bounds x key
    let flags ← acSetIsBothFalse h.flags x
    .ok
      ({ h with
          keys := keys, flags := flags
          size := (h.size + 1) % 2 ^ 32, nOccupied := (h.nOccupied + 1) % 2 ^ 32 }, x, 1)
  else if ← acIsDel h.flags x then
    let keys ← h.keys.write .bounds x key
    let flags ← acSetIsBothFalse h.flags x
    .ok ({ h with keys := keys, flags := flags, size := (h.size + 1) % 2 ^ 32 }, x, 2)
  else
    .ok (h, x, 0)

end Keys

/-- `kh_del` -/
def khDel (h : KHash K V) (x : Nat) : Exec (KHash K V) := do
  if x ≠ h.nBuckets then
    if ← acIsEither h.flags x then
      .ok h
    else
      let flags ← acSetIsDelTrue h.flags x
      .ok { h with flags := flags, size := (h.size + 2 ^ 32 - 1) % 2 ^ 32 }
  else
    .ok h

end KHash
end Secondary
