import Secondary.Query.ParseSpec
import Secondary.Query.PlanExact

/-!
# Query.LikePrefix — `LIKE 'p%'`

A pattern with `%` at its end is the range from the prefix to the prefix and one byte `0xff`, both
ends included.  A string that begins with the prefix is in it, unless it goes on behind a `0xff`
right after the prefix: then it is longer than the upper end.
-/

namespace Secondary

open Lib

/-- `LIKE 'p%'` on a property. -/
def likePrefix (prop : Property) (p : CString) : PredicateNode where
  prop := prop
  op := .LIKE
  operand := .val (.string (p.bytes ++ [37]))

/-- `toQueryNode`, and the `propId` that its caller sets. -/
def likePrefixNode (prop : Property) (p : CString) (i : Nat) : Exec SIQueryNode := do
  let ret ← toQueryNode (likePrefix prop p)
  ret.setPropId i

/-- The predicate accepts the value of a STRING column if and only if `P` says so: as a filter, on
any tuple that has the value in the column, and as a range of a scan. -/
structure Accepts (q : SIPredicate) (v : SIValue) (P : Prop) : Prop where
  filter : ∀ (k : SIMultiKey) (fs : List SIKeyCmpFunc), k[q.propId.toNat]? = some v →
    fs[q.propId.toNat]? = some siCmpString → ∃ b, evalPredicate q k fs = .ok b ∧ (b = true ↔ P)
  scan : InRanges siCmpString v q ↔ P

/-- The predicate of `p%` takes `s` for what begins with `p`, and accepts no NULL. -/
def MatchesPrefix (p : CString) (s : List UInt8) : Prop :=
  ∀ prop i, ∃ q, likePrefixNode prop p i = .ok (.pred false q) ∧ q.propId = i ∧
    Accepts q (.string s) (BeginsWith p.bytes s) ∧ Accepts q .null False

/-- The string begins with `p` and goes on with a byte `0xff` and more. -/
def BehindMax (p s : List UInt8) : Prop :=
  BeginsWith p s ∧ ∃ b rest, s.drop p.length = 255 :: b :: rest

/-- The predicate of `p%`: the end of the range is `p` and a byte `0xff`. -/
def prefixPred (p : CString) (i : Nat) : SIPredicate where
  propId := i
  t := .rng (.string p.bytes) (.string (p.bytes ++ [255])) false false

theorem likePrefixNode_eq (prop : Property) (p : CString) (i : Nat) :
    likePrefixNode prop p i = .ok (.pred false (prefixPred p i)) := by
  have hlast : (p.bytes ++ [37]).getLast? = some 37 := List.getLast?_concat
  have hnode : toQueryNode (likePrefix prop p) =
      .ok (siPredBetween 0 (.string p.bytes) (.string (p.bytes ++ [255])) false false) := by
    change likeQueryNode (.string (p.bytes ++ [37])) = _
    rw [likeQueryNode, SIValue.stringval, ok_bind, if_pos hlast, List.dropLast_concat]
  rw [likePrefixNode, hnode]
  rfl

/-- Filter and scan accept what the predicate means. -/
theorem accepts_prefixPred_iff {v : SIValue} (hv : ValueOk .string v) (p : CString) (i : Nat)
    {P : Prop} :
    Accepts (prefixPred p i) v P ↔ (PredHolds siCmpString v (prefixPred p i).t ↔ P) := by
  have hmin : BoundOk .string (.string p.bytes) := Or.inl (Or.inr ⟨rfl, trivial⟩)
  have hmax : BoundOk .string (.string (p.bytes ++ [255])) := Or.inl (Or.inr ⟨rfl, trivial⟩)
  have hscan : InRanges siCmpString v (prefixPred p i) ↔
      PredHolds siCmpString v (prefixPred p i).t := inRanges_iff_predHolds rfl ⟨hmin, hmax⟩ rfl
  constructor
  · intro h
    rw [← hscan, h.scan]
  · intro h
    refine ⟨?_, hscan.trans h⟩
    intro k fs hk hf
    obtain ⟨b, hb, hiff⟩ := withinRange_spec false false rfl hv hmin hmax
    have hik : (prefixPred p i).propId.toNat < k.length := (List.getElem?_eq_some_iff.1 hk).1
    have hin : ¬((prefixPred p i).propId < 0 ∨ (k.length : Int) ≤ (prefixPred p i).propId) := by
      have : (prefixPred p i).propId = i := rfl
      omega
    refine ⟨b, ?_, hiff.trans h⟩
    rw [evalPredicate, if_neg hin, hf, hk]
    exact hb

/-- No range has a NULL. -/
theorem not_predHolds_null (p : CString) (i : Nat) :
    ¬PredHolds siCmpString .null (prefixPred p i).t := by
  rintro ⟨_, c, hc, hle⟩
  obtain rfl : (1 : Int) = c := Except.ok.inj hc
  exact hle (Or.inl (by decide))

/-- `LIKE 'p%'` is prefix match on all strings, but for those that begin with the prefix and go on
behind a byte `0xff`. -/
theorem toQueryNode_likePrefix_iff (p : CString) (s : List UInt8) :
    MatchesPrefix p s ↔ ¬BehindMax p.bytes s := by
  have hmeans : ∀ i, PredHolds siCmpString (.string s) (prefixPred p i).t ↔
      BeginsWith p.bytes s ∧ ∀ b rest, s.drop p.bytes.length ≠ 255 :: b :: rest :=
    fun i => rng_string_iff.trans (inPrefixRange_iff p.noNul)
  have hstring : ∀ i, Accepts (prefixPred p i) (.string s) (BeginsWith p.bytes s) ↔
      ¬BehindMax p.bytes s := by
    intro i
    have hv : ValueOk .string (.string s) := Or.inr ⟨rfl, trivial⟩
    rw [accepts_prefixPred_iff hv, hmeans i]
    constructor
    · rintro h ⟨hbegins, b, rest, hdrop⟩
      exact (h.2 hbegins).2 b rest hdrop
    · intro h
      refine ⟨And.left, fun hbegins => ⟨hbegins, fun b rest hdrop => ?_⟩⟩
      exact h ⟨hbegins, b, rest, hdrop⟩
  constructor
  · intro h
    obtain ⟨q, hq, _, haccepts, _⟩ := h { name := none, id := 1 } 0
    rw [likePrefixNode_eq] at hq
    cases hq
    exact (hstring 0).1 haccepts
  · intro h prop i
    refine ⟨prefixPred p i, likePrefixNode_eq prop p i, rfl, (hstring i).2 h, ?_⟩
    rw [accepts_prefixPred_iff (Or.inl rfl), iff_false]
    exact not_predHolds_null p i

/-- `LIKE 'a%'` turns down the bytes `a`, `0xff`, `b`. -/
theorem toQueryNode_likePrefix_behindMax :
    ¬MatchesPrefix ⟨[97], by decide⟩ [97, 255, 98] := by
  intro h
  obtain ⟨q, hq, _, haccepts, _⟩ := h { name := none, id := 1 } 0
  cases hq
  obtain ⟨b, hb, hiff⟩ := haccepts.filter [.string [97, 255, 98]] [siCmpString] rfl rfl
  cases hb
  exact absurd (hiff.2 ⟨[255, 98], by decide⟩) (by decide)

end Secondary
