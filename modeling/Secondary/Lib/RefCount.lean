import Mathlib.Data.List.Flatten
import Mathlib.Data.List.Perm.Basic
import Mathlib.Logic.Function.Basic
import Secondary.Lib.Traced

/-!
# RefCount — cells with a count of the references to them

A cell is released when its count gets to zero, and using it afterwards is a fault.  A computation
that makes, copies and gives up references is seen at each of these steps: the counters together
with the references that are held there.  `Spec` says what a computation does with the references
it gets, whatever others are held at the time; its rules are those of a logic with frames.
-/

namespace Secondary
namespace Lib

abbrev Cell : Type := Nat

/-! ## Counters -/

structure Counters where
  next : Cell
  count : Cell → Nat
  /-- The cells that were released, the last one first. -/
  released : List Cell
  /-- The references that nobody holds any more and that were not given up.  The program knows
  nothing of them. -/
  lost : List Cell

namespace Counters

def empty : Counters where
  next := 0
  count := fun _ => 0
  released := []
  lost := []

/-- A new cell with one reference. -/
def new (h : Counters) : Counters :=
  { h with next := h.next + 1, count := Function.update h.count h.next 1 }

def inc (h : Counters) (c : Cell) : Counters :=
  { h with count := Function.update h.count c (h.count c + 1) }

/-- The last reference releases the cell. -/
def dec (h : Counters) (c : Cell) : Counters :=
  { h with
    count := Function.update h.count c (h.count c - 1)
    released := if h.count c = 1 then c :: h.released else h.released }

/-- Every cell was released exactly once. -/
def AllReleased (h : Counters) : Prop :=
  ∀ c < h.next, h.count c = 0 ∧ h.released.count c = 1

end Counters

/-- Counting is exact for the references `refs`, but for those that were lost. -/
structure Owns (h : Counters) (refs : List Cell) : Prop where
  count : ∀ c, h.count c = refs.count c + h.lost.count c
  fresh : ∀ c, h.next ≤ c → h.count c = 0
  released : ∀ c, h.released.count c = if c < h.next ∧ h.count c = 0 then 1 else 0

section Owns

variable {h : Counters} {refs refs' : List Cell} {c : Cell}

theorem owns_empty : Owns .empty [] where
  count _ := rfl
  fresh _ _ := rfl
  released c := by simp [Counters.empty]

theorem Owns.perm (howns : Owns h refs) (hperm : refs.Perm refs') : Owns h refs' where
  count c := by rw [howns.count c, hperm.count_eq]
  fresh := howns.fresh
  released := howns.released

theorem Owns.count_pos (howns : Owns h refs) (hc : c ∈ refs) : 0 < h.count c := by
  have hpos := List.count_pos_iff.2 hc
  rw [howns.count c]
  omega

theorem Owns.lt_next (howns : Owns h refs) (hc : 0 < h.count c) : c < h.next := by
  by_contra hge
  have hzero := howns.fresh c (Nat.le_of_not_lt hge)
  omega

theorem Owns.new (howns : Owns h refs) : Owns h.new (h.next :: refs) where
  count c := by
    have hcount := howns.count c
    by_cases hc : c = h.next
    · subst hc
      have hzero := howns.fresh h.next (Nat.le_refl _)
      simp [Counters.new]
      omega
    · simp [Counters.new, hc, Ne.symm hc, hcount]
  fresh c hc := by
    have hlt : h.next < c := hc
    simpa [Counters.new, Nat.ne_of_gt hlt] using howns.fresh c (Nat.le_of_lt hlt)
  released c := by
    have hreleased := howns.released c
    by_cases hc : c = h.next
    · subst hc
      simpa [Counters.new] using hreleased
    · have hlt : c < h.next + 1 ↔ c < h.next :=
        ⟨fun hle => Nat.lt_of_le_of_ne (Nat.le_of_lt_succ hle) hc, Nat.lt_succ_of_lt⟩
      simpa [Counters.new, hc, hlt] using hreleased

theorem Owns.inc (howns : Owns h refs) (hc : c ∈ refs) : Owns (h.inc c) (c :: refs) where
  count d := by
    have hcount := howns.count d
    by_cases hd : d = c
    · subst hd
      simp [Counters.inc]
      omega
    · simp [Counters.inc, hd, Ne.symm hd, hcount]
  fresh d hd := by
    have hne : d ≠ c := by
      rintro rfl
      exact Nat.not_le_of_lt (howns.lt_next (howns.count_pos hc)) hd
    simpa [Counters.inc, hne] using howns.fresh d hd
  released d := by
    have hreleased := howns.released d
    by_cases hd : d = c
    · subst hd
      have hpos := howns.count_pos hc
      have hne : ¬(d < h.next ∧ h.count d = 0) := by omega
      rw [if_neg hne] at hreleased
      simpa [Counters.inc] using hreleased
    · simpa [Counters.inc, hd] using hreleased

theorem Owns.dec (howns : Owns h (c :: refs)) : Owns (h.dec c) refs where
  count d := by
    have hcount := howns.count d
    by_cases hd : d = c
    · subst hd
      simp [Counters.dec] at hcount ⊢
      omega
    · simpa [Counters.dec, hd, Ne.symm hd] using hcount
  fresh d hd := by
    have hpos := howns.count_pos (List.mem_cons_self (a := c))
    have hne : d ≠ c := by
      rintro rfl
      exact Nat.not_le_of_lt (howns.lt_next hpos) hd
    simpa [Counters.dec, hne] using howns.fresh d hd
  released d := by
    have hreleased := howns.released d
    have hpos := howns.count_pos (List.mem_cons_self (a := c))
    have hlt := howns.lt_next hpos
    by_cases hd : d = c
    · subst hd
      -- It was not released before, and is now if this was the last reference.
      have hne : ¬(d < h.next ∧ h.count d = 0) := by omega
      rw [if_neg hne] at hreleased
      by_cases hone : h.count d = 1
      · simp [Counters.dec, hone, hlt, hreleased]
      · have hstill : ¬h.count d - 1 = 0 := by omega
        simp [Counters.dec, hone, hstill, hreleased]
    · by_cases hone : h.count c = 1
      · simpa [Counters.dec, hone, hd, Ne.symm hd] using hreleased
      · simpa [Counters.dec, hone, hd] using hreleased

/-- When nobody holds a reference, every cell was released exactly where none was lost. -/
theorem Owns.allReleased_iff (howns : Owns h []) : h.AllReleased ↔ h.lost = [] := by
  constructor
  · intro hall
    rw [List.eq_nil_iff_forall_not_mem]
    intro c hc
    have hpos := List.count_pos_iff.2 hc
    have hcount := howns.count c
    have hlt := howns.lt_next (c := c) (by omega)
    have hzero := (hall c hlt).1
    omega
  · intro hlost c hc
    have hcount : h.count c = 0 := by simp [howns.count c, hlost]
    refine ⟨hcount, ?_⟩
    rw [howns.released c, if_pos ⟨hc, hcount⟩]

end Owns

/-! ## Computations -/

inductive CountFault (ε : Type)
  /-- Using a cell that was released. -/
  | dead
  | other (e : ε)
  deriving DecidableEq

/-- What is seen: the counters, and the references that are held. -/
structure Snapshot where
  counters : Counters
  refs : List Cell

/-- At each cell the count is the number of references that are held. -/
def Snapshot.Exact (s : Snapshot) : Prop :=
  ∀ c, s.counters.count c = s.refs.count c

abbrev Counting (ε α : Type) : Type :=
  StateT Counters (Traced (CountFault ε) Snapshot) α

namespace Counting

variable {ε α β : Type}

def newRef : Counting ε Cell := fun h =>
  { log := [{ counters := h.new, refs := [h.next] }], out := .ok (h.next, h.new) }

def incRef (c : Cell) : Counting ε Unit := fun h =>
  if h.count c = 0 then
    Traced.lift (.error .dead)
  else
    { log := [{ counters := h.inc c, refs := [c] }], out := .ok ((), h.inc c) }

def decRef (c : Cell) : Counting ε Unit := fun h =>
  if h.count c = 0 then
    Traced.lift (.error .dead)
  else
    { log := [{ counters := h.dec c, refs := [] }], out := .ok ((), h.dec c) }

/-- Reading what the cell stands for. -/
def useRef (c : Cell) : Counting ε Unit := fun h =>
  if h.count c = 0 then Traced.lift (.error .dead) else pure ((), h)

/-- The references go out of reach. -/
def loseRefs (cs : List Cell) : Counting ε Unit := fun h =>
  { log := [{ counters := { h with lost := h.lost ++ cs }, refs := [] }],
    out := .ok ((), { h with lost := h.lost ++ cs }) }

/-- While the computation runs the references are held as well. -/
def holding (refs : List Cell) (m : Counting ε α) : Counting ε α := fun h =>
  { log := (m h).log.map fun s => { s with refs := s.refs ++ refs }, out := (m h).out }

/-- A computation without references. -/
def ofExcept (x : Except ε α) : Counting ε α := fun h =>
  Traced.lift ((x.mapError CountFault.other).map fun a => (a, h))

/-- A loop whose rounds each make some things, all of which are held in the rounds to come. -/
def gather (cells : β → List Cell) (f : α → Counting ε (List β)) :
    List α → Counting ε (List β)
  | [] => pure []
  | a :: as => do
      let bs ← f a
      let rest ← holding (bs.flatMap cells) (gather cells f as)
      pure (bs ++ rest)

/-- A loop that gives up one thing after the other. -/
def freeEach (cells : β → List Cell) (free : β → Counting ε Unit) : List β → Counting ε Unit
  | [] => pure ()
  | b :: bs => do
      holding (bs.flatMap cells) (free b)
      freeEach cells free bs

def useEach : List Cell → Counting ε Unit
  | [] => pure ()
  | c :: cs => do
      useRef c
      useEach cs

end Counting

protected theorem Counting.bind_assoc {ε α β γ : Type} (m : Counting ε α) (f : α → Counting ε β)
    (g : β → Counting ε γ) : m >>= f >>= g = m >>= fun a => f a >>= g :=
  funext fun h => Traced.bind_assoc (m h) (fun r => f r.1 r.2) fun r => g r.1 r.2

/-! ## Specifications -/

/-- The snapshot is exact for its references and those of the frame, but for the lost ones, and
what is lost there stays so. -/
structure Snapshot.Within (s : Snapshot) (frame : List Cell) (h : Counters) : Prop where
  count : ∀ c, s.counters.count c = (s.refs ++ frame).count c + s.counters.lost.count c
  lost : s.counters.lost <+: h.lost

/-- What is seen of a computation that lost `lost` and left the counters `h`. -/
structure Seen (log : List Snapshot) (frame lost : List Cell) (h : Counters) : Prop where
  within : ∀ s ∈ log, s.Within frame h
  /-- A loss is seen. -/
  shows : lost ≠ [] → ∃ s ∈ log, s.counters.lost ≠ []

section Seen

variable {frame lost lost' : List Cell} {h h' : Counters} {log log' : List Snapshot}

theorem seen_nil : Seen [] frame [] h where
  within _ hs := by cases hs
  shows hne := absurd rfl hne

theorem seen_singleton {refs : List Cell} (howns : Owns h (refs ++ frame)) :
    Seen [{ counters := h, refs := refs }] frame [] h where
  within s hs := by
    obtain rfl := List.mem_singleton.1 hs
    exact ⟨howns.count, List.prefix_refl _⟩
  shows hne := absurd rfl hne

/-- What was lost in the first part stays so in the second. -/
theorem Seen.append (hseen : Seen log frame lost h) (hseen' : Seen log' frame lost' h')
    (hlonger : h.lost <+: h'.lost) : Seen (log ++ log') frame (lost ++ lost') h' where
  within s hs := by
    rcases List.mem_append.1 hs with hs | hs
    · exact ⟨(hseen.within s hs).count, (hseen.within s hs).lost.trans hlonger⟩
    · exact hseen'.within s hs
  shows hne := by
    by_cases hlost : lost = []
    · have hlost' : lost' ≠ [] := by
        rintro rfl
        exact hne (by rw [hlost, List.append_nil])
      obtain ⟨s, hs, hloss⟩ := hseen'.shows hlost'
      exact ⟨s, List.mem_append_right _ hs, hloss⟩
    · obtain ⟨s, hs, hloss⟩ := hseen.shows hlost
      exact ⟨s, List.mem_append_left _ hs, hloss⟩

/-- Seen from outside, what a computation holds is part of it. -/
theorem Seen.holding {held : List Cell} (hseen : Seen log (held ++ frame) lost h) :
    Seen (log.map fun s => { s with refs := s.refs ++ held }) frame lost h where
  within s hs := by
    obtain ⟨t, ht, rfl⟩ := List.mem_map.1 hs
    refine ⟨fun c => ?_, (hseen.within t ht).lost⟩
    rw [(hseen.within t ht).count c, List.append_assoc]
  shows hne := by
    obtain ⟨s, hs, hloss⟩ := hseen.shows hne
    exact ⟨_, List.mem_map_of_mem hs, hloss⟩

end Seen

/-- Given the references `pre`, and while others are held of which it reads those in `reads`, the
computation returns, and `Q` says of what it returns which references come with it and which were
lost. -/
def Spec {ε α : Type} (reads pre : List Cell) (m : Counting ε α)
    (Q : α → List Cell → List Cell → Prop) : Prop :=
  ∀ h frame, (∀ c ∈ reads, c ∈ frame) → Owns h (pre ++ frame) →
    ∃ a h' refs lost, (m h).out = .ok (a, h') ∧ Q a refs lost ∧ Owns h' (refs ++ frame) ∧
      h'.lost = h.lost ++ lost ∧ Seen (m h).log frame lost h'

/-- Nothing is lost, and what is returned holds its own references. -/
def Holds {α : Type} (P : α → Prop) (cells : α → List Cell) (a : α) (refs lost : List Cell) :
    Prop :=
  P a ∧ refs.Perm (cells a) ∧ lost = []

/-- All references were given up. -/
abbrev GivenUp : Unit → List Cell → List Cell → Prop :=
  Holds (fun _ => True) fun _ => []

namespace Spec

open Counting

variable {ε α β : Type} {reads reads' pre pre' : List Cell} {m : Counting ε α}
  {Q R : α → List Cell → List Cell → Prop}

theorem mono (hm : Spec reads pre m Q) (h : ∀ a refs lost, Q a refs lost → R a refs lost) :
    Spec reads pre m R := by
  intro s frame hreads howns
  obtain ⟨a, s', refs, lost, hout, hQ, hrest⟩ := hm s frame hreads howns
  exact ⟨a, s', refs, lost, hout, h a refs lost hQ, hrest⟩

theorem perm (hm : Spec reads pre m Q) (h : pre'.Perm pre) : Spec reads pre' m Q :=
  fun s frame hreads howns => hm s frame hreads (howns.perm (h.append_right frame))

theorem pure {a : α} (h : Q a pre []) : Spec reads pre (Pure.pure a : Counting ε α) Q :=
  fun s _ _ howns => ⟨a, s, pre, [], rfl, h, howns, (List.append_nil _).symm, seen_nil⟩

theorem bind {f : α → Counting ε β} {R : β → List Cell → List Cell → Prop}
    (hm : Spec reads pre m Q)
    (hf : ∀ a refs lost, Q a refs lost →
      Spec reads refs (f a) fun b refs' lost' => R b refs' (lost ++ lost')) :
    Spec reads pre (m >>= f) R := by
  intro s frame hreads howns
  obtain ⟨a, s₁, refs, lost, hout, hQ, howns₁, hlost₁, hseen₁⟩ := hm s frame hreads howns
  obtain ⟨b, s₂, refs', lost', hout₂, hR, howns₂, hlost₂, hseen₂⟩ :=
    hf a refs lost hQ s₁ frame hreads howns₁
  have hrun : (m >>= f) s = { log := (m s).log ++ (f a s₁).log, out := (f a s₁).out } :=
    Traced.bind_ok hout _
  refine ⟨b, s₂, refs', lost ++ lost', by rw [hrun, hout₂], hR, howns₂, ?_, ?_⟩
  · rw [hlost₂, hlost₁, List.append_assoc]
  · rw [hrun]
    exact hseen₁.append hseen₂ ⟨lost', hlost₂.symm⟩

/-- The rule of the frame. -/
theorem holding (held : List Cell) (hm : Spec reads' pre m Q)
    (hreads : ∀ c ∈ reads', c ∈ held ∨ c ∈ reads) :
    Spec reads (pre ++ held) (Counting.holding held m) fun a refs lost =>
      ∃ own, refs = own ++ held ∧ Q a own lost := by
  intro s frame hframe howns
  have hin : ∀ c ∈ reads', c ∈ held ++ frame := by
    intro c hc
    rcases hreads c hc with hc | hc
    · exact List.mem_append_left _ hc
    · exact List.mem_append_right _ (hframe c hc)
  rw [List.append_assoc] at howns
  obtain ⟨a, s', refs, lost, hout, hQ, howns', hlost, hseen⟩ := hm s (held ++ frame) hin howns
  refine ⟨a, s', refs ++ held, lost, hout, ⟨refs, rfl, hQ⟩, ?_, hlost, hseen.holding⟩
  rwa [List.append_assoc]

/-! ### Steps -/

theorem newRef : Spec reads [] (Counting.newRef : Counting ε Cell) (Holds (fun _ => True) ([·])) := by
  intro s frame _ howns
  have hnew : Owns s.new ([s.next] ++ frame) := howns.new
  exact ⟨s.next, s.new, [s.next], [], rfl, ⟨trivial, .refl _, rfl⟩, hnew,
    (List.append_nil _).symm, seen_singleton hnew⟩

theorem incRef {c : Cell} (hc : c ∈ reads) :
    Spec reads [] (Counting.incRef c : Counting ε Unit) (Holds (fun _ => True) fun _ => [c]) := by
  intro s frame hreads howns
  have hinc : Owns (s.inc c) ([c] ++ frame) := howns.inc (hreads c hc)
  have hne : s.count c ≠ 0 := Nat.ne_of_gt (howns.count_pos (hreads c hc))
  have hrun : (Counting.incRef c : Counting ε Unit) s = _ := if_neg hne
  refine ⟨(), s.inc c, [c], [], by rw [hrun], ⟨trivial, .refl _, rfl⟩, hinc,
    (List.append_nil _).symm, ?_⟩
  rw [hrun]
  exact seen_singleton hinc

theorem decRef {c : Cell} : Spec reads [c] (Counting.decRef c : Counting ε Unit) GivenUp := by
  intro s frame _ howns
  have hne : s.count c ≠ 0 := Nat.ne_of_gt (howns.count_pos (List.mem_cons_self))
  have hdec : Owns (s.dec c) ([] ++ frame) := howns.dec
  have hrun : (Counting.decRef c : Counting ε Unit) s = _ := if_neg hne
  refine ⟨(), s.dec c, [], [], by rw [hrun], ⟨trivial, .refl _, rfl⟩, hdec,
    (List.append_nil _).symm, ?_⟩
  rw [hrun]
  exact seen_singleton hdec

theorem useRef {c : Cell} (hc : c ∈ pre ∨ c ∈ reads) :
    Spec reads pre (Counting.useRef c : Counting ε Unit) (Holds (fun _ => True) fun _ => pre) := by
  intro s frame hreads howns
  have hmem : c ∈ pre ++ frame := List.mem_append.2 (hc.imp_right (hreads c))
  have hne : s.count c ≠ 0 := Nat.ne_of_gt (howns.count_pos hmem)
  have hrun : (Counting.useRef c : Counting ε Unit) s = Pure.pure ((), s) := if_neg hne
  refine ⟨(), s, pre, [], by rw [hrun]; rfl, ⟨trivial, .refl _, rfl⟩, howns,
    (List.append_nil _).symm, ?_⟩
  rw [hrun]
  exact seen_nil

theorem loseRefs {cs : List Cell} :
    Spec reads cs (Counting.loseRefs cs : Counting ε Unit) fun _ refs lost =>
      refs = [] ∧ lost = cs := by
  intro s frame _ howns
  have hlose : Owns { s with lost := s.lost ++ cs } frame := by
    refine ⟨fun c => ?_, howns.fresh, howns.released⟩
    have hcount := howns.count c
    simp only [List.count_append] at hcount ⊢
    omega
  refine ⟨(), _, [], cs, rfl, ⟨rfl, rfl⟩, hlose, rfl, (seen_singleton hlose).within, ?_⟩
  exact fun hne => ⟨_, List.mem_singleton_self _, by simp [hne]⟩

theorem bind_ofExcept {x : Except ε α} {a : α} {f : α → Counting ε β}
    {R : β → List Cell → List Cell → Prop} (hx : x = .ok a) (hf : Spec reads pre (f a) R) :
    Spec reads pre (Counting.ofExcept x >>= f) R := by
  subst hx
  exact hf

/-! ### Composition where nothing is lost -/

section Kept

variable {P : α → Prop} {cells : α → List Cell}

theorem pure_holds {a : α} (hP : P a) (hcells : pre.Perm (cells a)) :
    Spec reads pre (Pure.pure a : Counting ε α) (Holds P cells) :=
  .pure ⟨hP, hcells, rfl⟩

theorem bind_holds {f : α → Counting ε β} {R : β → List Cell → List Cell → Prop}
    (hm : Spec reads pre m (Holds P cells)) (hf : ∀ a, P a → Spec reads (cells a) (f a) R) :
    Spec reads pre (m >>= f) R := by
  refine hm.bind ?_
  rintro a refs _ ⟨hP, hrefs, rfl⟩
  exact (hf a hP).perm hrefs

/-- A part of a computation, while the rest of its references is held. -/
theorem bind_holding {held : List Cell} {f : α → Counting ε β}
    {R : β → List Cell → List Cell → Prop} (hm : Spec reads' pre m (Holds P cells))
    (hpre : pre'.Perm (pre ++ held)) (hreads : ∀ c ∈ reads', c ∈ held ∨ c ∈ reads)
    (hf : ∀ a, P a → Spec reads (cells a ++ held) (f a) R) :
    Spec reads pre' (Counting.holding held m >>= f) R := by
  have hheld : Spec reads pre' (Counting.holding held m) (Holds P fun a => cells a ++ held) := by
    refine ((hm.holding held hreads).perm hpre).mono ?_
    rintro a _ lost ⟨own, rfl, hP, hown, rfl⟩
    exact ⟨hP, hown.append_right held, rfl⟩
  exact hheld.bind_holds hf

theorem holds_mono {P' : α → Prop} {cells' : α → List Cell}
    (hm : Spec reads pre m (Holds P cells))
    (h : ∀ a, P a → P' a ∧ (cells a).Perm (cells' a)) : Spec reads pre m (Holds P' cells') := by
  refine hm.mono ?_
  rintro a refs lost ⟨hP, hrefs, hlost⟩
  exact ⟨(h a hP).1, hrefs.trans (h a hP).2, hlost⟩

end Kept

/-! ### Loops -/

/-- The things that a loop makes, seen through `view`, are those of its rounds. -/
theorem gather {γ : Type} {cells : β → List Cell} {f : α → Counting ε (List β)} {view : β → γ}
    {g : α → List γ} {as : List α}
    (hf : ∀ a ∈ as, Spec reads [] (f a)
      (Holds (fun bs => bs.map view = g a) (List.flatMap cells))) :
    Spec reads [] (Counting.gather cells f as)
      (Holds (fun bs => bs.map view = as.flatMap g) (List.flatMap cells)) := by
  induction as with
  | nil => exact pure_holds rfl (.refl _)
  | cons a as ih =>
      have hrest := ih fun b hb => hf b (List.mem_cons_of_mem _ hb)
      refine (hf a List.mem_cons_self).bind_holds fun bs hbs => ?_
      refine bind_holding hrest (.refl _) (fun c hc => Or.inr hc) fun rest hrest => ?_
      refine pure_holds ?_ ?_
      · rw [List.map_append, hbs, hrest, List.flatMap_cons]
      · rw [List.flatMap_append]
        exact List.perm_append_comm

theorem freeEach {cells : β → List Cell} {free : β → Counting ε Unit} {bs : List β}
    (hfree : ∀ b ∈ bs, Spec reads (cells b) (free b) GivenUp) :
    Spec reads (bs.flatMap cells) (Counting.freeEach cells free bs) GivenUp := by
  induction bs with
  | nil => exact pure_holds trivial (.refl _)
  | cons b bs ih =>
      have hrest := ih fun b' hb' => hfree b' (List.mem_cons_of_mem _ hb')
      exact bind_holding (hfree b List.mem_cons_self) (.refl _) (fun c hc => Or.inr hc)
        fun _ _ => hrest

theorem useEach {cs : List Cell} (hcs : ∀ c ∈ cs, c ∈ pre ∨ c ∈ reads) :
    Spec reads pre (Counting.useEach cs : Counting ε Unit)
      (Holds (fun _ => True) fun _ => pre) := by
  induction cs with
  | nil => exact pure_holds trivial (.refl _)
  | cons c cs ih =>
      exact (useRef (hcs c List.mem_cons_self)).bind_holds fun _ _ =>
        ih fun d hd => hcs d (List.mem_cons_of_mem _ hd)

end Spec

/-! ## Computations that end in a fault -/

/-- Given the references `pre`, and while others are held of which it reads those in `reads`, the
computation ends in the fault `e`, and `L` says which references were lost until then. -/
def Faults {ε α : Type} (reads pre : List Cell) (m : Counting ε α) (e : ε)
    (L : List Cell → Prop) : Prop :=
  ∀ h frame, (∀ c ∈ reads, c ∈ frame) → Owns h (pre ++ frame) →
    ∃ h' lost, (m h).out = .error (.other e) ∧ L lost ∧ h'.lost = h.lost ++ lost ∧
      Seen (m h).log frame lost h'

section Faults

variable {ε α β : Type} {reads pre : List Cell} {m : Counting ε α} {f : α → Counting ε β} {e : ε}
  {L : List Cell → Prop}

theorem faults_ofExcept {x : Except ε α} (hx : x = .error e) (hL : L []) :
    Faults reads pre (Counting.ofExcept x) e L := by
  subst hx
  exact fun h _ _ _ => ⟨h, [], rfl, hL, (List.append_nil _).symm, seen_nil⟩

theorem Faults.bind_ofExcept {x : Except ε α} {a : α} (hx : x = .ok a)
    (hf : Faults reads pre (f a) e L) : Faults reads pre (Counting.ofExcept x >>= f) e L := by
  subst hx
  exact hf

/-- The first part ends in the fault. -/
theorem Faults.bind (hm : Faults reads pre m e L) : Faults reads pre (m >>= f) e L := by
  intro h frame hreads howns
  obtain ⟨h', lost, hout, hL, hlost, hseen⟩ := hm h frame hreads howns
  have hrun : (m >>= f) h = { log := (m h).log, out := .error (.other e) } :=
    Traced.bind_error hout _
  exact ⟨h', lost, by rw [hrun], hL, hlost, by rwa [hrun]⟩

/-- The second part does. -/
theorem Spec.bind_faults {Q : α → List Cell → List Cell → Prop} (hm : Spec reads pre m Q)
    (hf : ∀ a refs lost, Q a refs lost →
      Faults reads refs (f a) e fun lost' => L (lost ++ lost')) :
    Faults reads pre (m >>= f) e L := by
  intro h frame hreads howns
  obtain ⟨a, h₁, refs, lost, hout, hQ, howns₁, hlost₁, hseen₁⟩ := hm h frame hreads howns
  obtain ⟨h₂, lost', hout₂, hL, hlost₂, hseen₂⟩ := hf a refs lost hQ h₁ frame hreads howns₁
  have hrun : (m >>= f) h = { log := (m h).log ++ (f a h₁).log, out := (f a h₁).out } :=
    Traced.bind_ok hout _
  refine ⟨h₂, lost ++ lost', by rw [hrun, hout₂], hL, ?_, ?_⟩
  · rw [hlost₂, hlost₁, List.append_assoc]
  · rw [hrun]
    exact hseen₁.append hseen₂ ⟨lost', hlost₂.symm⟩

theorem Faults.perm {pre' : List Cell} (hm : Faults reads pre m e L) (h : pre'.Perm pre) :
    Faults reads pre' m e L :=
  fun s frame hreads howns => hm s frame hreads (howns.perm (h.append_right frame))

theorem Faults.mono {L' : List Cell → Prop} (hm : Faults reads pre m e L)
    (h : ∀ lost, L lost → L' lost) : Faults reads pre m e L' := by
  intro s frame hreads howns
  obtain ⟨s', lost, hout, hL, hrest⟩ := hm s frame hreads howns
  exact ⟨s', lost, hout, h lost hL, hrest⟩

/-- Where nothing is lost in the first part. -/
theorem Spec.bind_holds_faults {P : α → Prop} {cells : α → List Cell}
    (hm : Spec reads pre m (Holds P cells)) (hf : ∀ a, P a → Faults reads (cells a) (f a) e L) :
    Faults reads pre (m >>= f) e L := by
  refine hm.bind_faults ?_
  rintro a refs _ ⟨hP, hrefs, rfl⟩
  exact (hf a hP).perm hrefs

end Faults

/-! ## Exact runs -/

/-- At each step every count is the number of references that are held, nothing is used that was
released, and in the end everything was released exactly once. -/
structure ExactRun {ε α : Type} (t : Traced (CountFault ε) Snapshot (α × Counters)) : Prop where
  exact : ∀ s ∈ t.log, s.Exact
  alive : t.out ≠ .error .dead
  released : ∀ a h, t.out = .ok (a, h) → h.AllReleased

section ExactRun

variable {ε α : Type} {m : Counting ε α} {P : Prop}

theorem Snapshot.Within.exact_iff {s : Snapshot} {h : Counters} (hs : s.Within [] h) :
    s.Exact ↔ s.counters.lost = [] := by
  constructor
  · intro hexact
    rw [List.eq_nil_iff_forall_not_mem]
    intro c hc
    have hpos := List.count_pos_iff.2 hc
    have hcount := hs.count c
    rw [hexact c, List.append_nil] at hcount
    omega
  · intro hlost c
    rw [hs.count c, hlost, List.append_nil, List.count_nil, Nat.add_zero]

/-- What is seen is exact where nothing was lost. -/
theorem Seen.exact_iff {log : List Snapshot} {lost : List Cell} {h : Counters}
    (hseen : Seen log [] lost h) (hlost : h.lost = lost) : (∀ s ∈ log, s.Exact) ↔ lost = [] := by
  constructor
  · intro hexact
    by_contra hne
    obtain ⟨s, hs, hloss⟩ := hseen.shows hne
    exact hloss ((hseen.within s hs).exact_iff.1 (hexact s hs))
  · rintro rfl s hs
    have hlonger := (hseen.within s hs).lost
    rw [hlost] at hlonger
    exact (hseen.within s hs).exact_iff.2 (List.prefix_nil.1 hlonger)

theorem exactRun_iff_of_spec
    (hm : Spec [] [] m fun _ refs lost => refs = [] ∧ (lost = [] ↔ P)) :
    ExactRun (m .empty) ↔ P := by
  obtain ⟨a, h', refs, lost, hout, ⟨rfl, hlost⟩, howns, hlost', hseen⟩ :=
    hm .empty [] (by simp) owns_empty
  have hlost' : h'.lost = lost := hlost'
  constructor
  · intro hrun
    exact hlost.1 ((hseen.exact_iff hlost').1 hrun.exact)
  · intro hP
    have hnone := hlost.2 hP
    refine ⟨(hseen.exact_iff hlost').2 hnone, by simp [hout], fun b h hb => ?_⟩
    obtain ⟨rfl, rfl⟩ := Prod.mk.inj (Except.ok.inj (hout.symm.trans hb))
    exact howns.allReleased_iff.2 (hlost'.trans hnone)

theorem exactRun_iff_of_faults {e : ε} (hm : Faults [] [] m e fun lost => (lost = [] ↔ P)) :
    ExactRun (m .empty) ↔ P := by
  obtain ⟨h', lost, hout, hlost, hlost', hseen⟩ := hm .empty [] (by simp) owns_empty
  have hlost' : h'.lost = lost := hlost'
  constructor
  · intro hrun
    exact hlost.1 ((hseen.exact_iff hlost').1 hrun.exact)
  · intro hP
    exact ⟨(hseen.exact_iff hlost').2 (hlost.2 hP), by simp [hout], by simp [hout]⟩

end ExactRun

end Lib
end Secondary
