import Secondary.Parser.Language

/-!
# Precedence — what AND and OR mean without parentheses

In SQL, AND binds tighter than OR.  In `parser.y`, `%left OR` is declared behind `%left AND`, which
gives OR the higher precedence.  A sequence of conditions is therefore read as SQL reads it only
when it is joined by AND alone or by OR alone (`parseQuery_sqlPrecedence_iff`).  Parentheses are read
as SQL reads them.
-/

namespace Secondary

open Lib Lib.ShiftReduce

/-! ## Truth of a tree -/

namespace ParseNode

/-- The truth of a tree, where `σ i` is the truth of its predicate number `i` from the left. -/
def truth : ParseNode → (Nat → Bool) → Bool
  | .pred _, σ => σ 0
  | .cond left op right, σ =>
      let ofRight := right.truth fun i => σ (left.preds.length + i)
      if op = .OR then left.truth σ || ofRight else left.truth σ && ofRight

/-- `part` is a part of the tree, between the given predicates. -/
inductive Within (part : ParseNode) : ParseNode → List PredicateNode → List PredicateNode → Prop where
  | here : Within part part [] []
  | left {l r : ParseNode} {op : Terminal} {before after : List PredicateNode} :
      Within part l before after → Within part (.cond l op r) before (after ++ r.preds)
  | right {l r : ParseNode} {op : Terminal} {before after : List PredicateNode} :
      Within part r before after → Within part (.cond l op r) (l.preds ++ before) after

theorem Within.preds_eq {part n : ParseNode} {before after : List PredicateNode}
    (h : part.Within n before after) : n.preds = before ++ part.preds ++ after := by
  induction h with
  | here => simp
  | left _ ih => simp [preds, ih]
  | right _ ih => simp [preds, ih]

theorem Within.trans {part n m : ParseNode} {before after before' after' : List PredicateNode}
    (h : part.Within n before after) (h' : n.Within m before' after') :
    part.Within m (before' ++ before) (after ++ after') := by
  induction h' with
  | here => simpa using h
  | left _ ih =>
      rw [← List.append_assoc]
      exact .left ih
  | right _ ih =>
      rw [List.append_assoc]
      exact .right ih

end ParseNode

/-! ## Truth of a sequence -/

/-- The truth of the condition behind each operator. -/
def assign (σ : Nat → Bool) : List SILogicOperator → List (SILogicOperator × Bool)
  | [] => []
  | op :: ops => (op, σ 0) :: assign (fun i => σ (i + 1)) ops

/-- SQL: AND binds tighter than OR. -/
def sqlTruth : Bool → List (SILogicOperator × Bool) → Bool
  | b, [] => b
  | b, (.opAnd, c) :: rest => sqlTruth (b && c) rest
  | b, (.opOr, c) :: rest => b || sqlTruth c rest

/-- OR binds tighter than AND. -/
def orFirst : Bool → List (SILogicOperator × Bool) → Bool
  | b, [] => b
  | b, (.opOr, c) :: rest => orFirst (b || c) rest
  | b, (.opAnd, c) :: rest => b && orFirst c rest

section Readings

variable {ops : List SILogicOperator} {σ : Nat → Bool}

theorem sqlTruth_and (h : .opOr ∉ ops) (b c : Bool) :
    sqlTruth (b && c) (assign σ ops) = (b && sqlTruth c (assign σ ops)) := by
  induction ops generalizing c σ with
  | nil => rfl
  | cons op ops ih =>
      cases op with
      | opOr => exact absurd List.mem_cons_self h
      | opAnd =>
          rw [assign, sqlTruth, sqlTruth, Bool.and_assoc]
          exact ih (fun hmem => h (List.mem_cons_of_mem _ hmem)) _

theorem orFirst_or (h : .opAnd ∉ ops) (b c : Bool) :
    orFirst (b || c) (assign σ ops) = (b || orFirst c (assign σ ops)) := by
  induction ops generalizing c σ with
  | nil => rfl
  | cons op ops ih =>
      cases op with
      | opAnd => exact absurd List.mem_cons_self h
      | opOr =>
          rw [assign, orFirst, orFirst, Bool.or_assoc]
          exact ih (fun hmem => h (List.mem_cons_of_mem _ hmem)) _

/-- With one operator only, the two readings agree. -/
theorem readings_agree (h : ¬(.opAnd ∈ ops ∧ .opOr ∈ ops)) (b : Bool) :
    orFirst b (assign σ ops) = sqlTruth b (assign σ ops) := by
  induction ops generalizing b σ with
  | nil => rfl
  | cons op ops ih =>
      have hrest : ¬(.opAnd ∈ ops ∧ .opOr ∈ ops) := fun hmem =>
        h ⟨List.mem_cons_of_mem _ hmem.1, List.mem_cons_of_mem _ hmem.2⟩
      cases op with
      | opAnd =>
          have hno : .opOr ∉ ops := fun hmem =>
            h ⟨List.mem_cons_self, List.mem_cons_of_mem _ hmem⟩
          rw [assign, orFirst, sqlTruth, sqlTruth_and hno, ih hrest]
      | opOr =>
          have hno : .opAnd ∉ ops := fun hmem =>
            h ⟨List.mem_cons_of_mem _ hmem, List.mem_cons_self⟩
          rw [assign, orFirst, sqlTruth, orFirst_or hno, ih hrest]

theorem orFirst_false : orFirst false (assign (fun _ => false) ops) = false := by
  induction ops with
  | nil => rfl
  | cons op ops ih =>
      cases op with
      | opAnd => rfl
      | opOr => exact ih

theorem sqlTruth_true : sqlTruth true (assign (fun _ => true) ops) = true := by
  induction ops with
  | nil => rfl
  | cons op ops ih =>
      cases op with
      | opAnd => exact ih
      | opOr => rfl

/-- All conditions behind an AND are false. -/
theorem orFirst_eq_false (h : .opAnd ∈ ops) (b : Bool) :
    orFirst b (assign (fun _ => false) ops) = false := by
  induction ops generalizing b with
  | nil => cases h
  | cons op ops ih =>
      cases op with
      | opAnd =>
          rw [assign, orFirst, orFirst_false, Bool.and_false]
      | opOr =>
          have hmem : .opAnd ∈ ops := by simpa using h
          exact ih hmem _

/-- All conditions behind an OR are true. -/
theorem sqlTruth_eq_true (h : .opOr ∈ ops) (b : Bool) :
    sqlTruth b (assign (fun _ => true) ops) = true := by
  induction ops generalizing b with
  | nil => cases h
  | cons op ops ih =>
      cases op with
      | opOr =>
          rw [assign, sqlTruth, sqlTruth_true, Bool.or_true]
      | opAnd =>
          have hmem : .opOr ∈ ops := by simpa using h
          exact ih hmem _

/-- With both operators the readings differ, whatever the order of the operators. -/
theorem readings_differ (h : .opAnd ∈ ops ∧ .opOr ∈ ops) :
    ∃ σ : Nat → Bool, orFirst (σ 0) (assign (fun i => σ (i + 1)) ops) ≠
      sqlTruth (σ 0) (assign (fun i => σ (i + 1)) ops) := by
  obtain ⟨hand, hor⟩ := h
  cases ops with
  | nil => cases hand
  | cons op ops =>
      cases op with
      | opAnd =>
          -- The first condition alone is false: SQL leaves it to its own alternative.
          refine ⟨fun i => decide (i ≠ 0), ?_⟩
          have hcode : orFirst false (assign (fun _ => true) (.opAnd :: ops)) = false := rfl
          have hsql := sqlTruth_eq_true hor false
          simpa [hcode] using hsql
      | opOr =>
          -- The first condition alone is true: for SQL that is an alternative that holds.
          refine ⟨fun i => decide (i = 0), ?_⟩
          have hcode := orFirst_eq_false hand true
          have hsql : sqlTruth true (assign (fun _ => false) (.opOr :: ops)) = true := rfl
          simpa [hsql] using hcode

end Readings

/-! ## Truth of the tree of a sequence -/

section SeqTree

def joinPreds : Option ParseNode → List PredicateNode
  | none => []
  | some a => a.preds

def restPreds (rest : List (SILogicOperator × ParseNode)) : List PredicateNode :=
  rest.flatMap fun j => j.2.preds

variable {pend : Option ParseNode} {n g : ParseNode} {op : SILogicOperator}
  {rest before after : List (SILogicOperator × ParseNode)}

def joinTruth (σ : Nat → Bool) : Option ParseNode → Bool
  | none => true
  | some a => a.truth σ

theorem within_joinAnd : n.Within (joinAnd pend n) (joinPreds pend) [] := by
  cases pend with
  | none => exact .here
  | some a =>
      have hright : n.Within (newConditionNode a .AND n) (a.preds ++ []) [] := .right .here
      simpa [joinAnd, joinPreds] using hright

theorem preds_joinAnd : (joinAnd pend n).preds = joinPreds pend ++ n.preds := by
  have hwithin : n.Within (joinAnd pend n) (joinPreds pend) [] := within_joinAnd
  simpa using hwithin.preds_eq

theorem truth_joinAnd (σ : Nat → Bool) :
    (joinAnd pend n).truth σ =
      (joinTruth σ pend && n.truth fun i => σ ((joinPreds pend).length + i)) := by
  cases pend with
  | none => simp [joinAnd, joinTruth, joinPreds]
  | some a => simp [joinAnd, joinTruth, joinPreds, newConditionNode, ParseNode.truth]

/-- The condition that the first operand is joined to by AND is a part of the tree. -/
theorem within_seqTree_pend {a : ParseNode} :
    a.Within (seqTree (some a) n rest) [] (n.preds ++ restPreds rest) := by
  induction rest generalizing a n with
  | nil =>
      have hleft : a.Within (newConditionNode a .AND n) [] ([] ++ n.preds) := .left .here
      simpa [seqTree, joinAnd, restPreds] using hleft
  | cons j rest ih =>
      obtain ⟨op, m⟩ := j
      cases op with
      | opOr =>
          have hor : a.Within (seqTree (some a) (newConditionNode n .OR m) rest) []
              ((newConditionNode n .OR m).preds ++ restPreds rest) := ih
          simpa [seqTree, restPreds, newConditionNode, ParseNode.preds] using hor
      | opAnd =>
          have hleft : a.Within (newConditionNode a .AND n) [] ([] ++ n.preds) := .left .here
          have hand : a.Within (seqTree (some (newConditionNode a .AND n)) m rest) ([] ++ [])
              (([] ++ n.preds) ++ (m.preds ++ restPreds rest)) := hleft.trans ih
          simpa [seqTree, joinAnd, restPreds] using hand

/-- The first operand is a part of the tree. -/
theorem within_seqTree_first :
    n.Within (seqTree pend n rest) (joinPreds pend) (restPreds rest) := by
  induction rest generalizing pend n with
  | nil =>
      exact within_joinAnd
  | cons j rest ih =>
      obtain ⟨op, m⟩ := j
      cases op with
      | opOr =>
          have hleft : n.Within (newConditionNode n .OR m) [] ([] ++ m.preds) := .left .here
          have hor : n.Within (seqTree pend (newConditionNode n .OR m) rest)
              (joinPreds pend ++ []) (([] ++ m.preds) ++ restPreds rest) := hleft.trans ih
          simpa [seqTree, restPreds] using hor
      | opAnd =>
          have hand : n.Within (seqTree (some (joinAnd pend n)) m rest) ([] ++ joinPreds pend)
              ([] ++ (m.preds ++ restPreds rest)) := within_joinAnd.trans within_seqTree_pend
          simpa [seqTree, restPreds] using hand

/-- Every other operand is a part of the tree. -/
theorem within_seqTree_later :
    g.Within (seqTree pend n (before ++ (op, g) :: after))
      (joinPreds pend ++ n.preds ++ restPreds before) (restPreds after) := by
  induction before generalizing pend n with
  | nil =>
      cases op with
      | opOr =>
          have hright : g.Within (newConditionNode n .OR g) (n.preds ++ []) [] := .right .here
          have hor : g.Within (seqTree pend (newConditionNode n .OR g) after)
              (joinPreds pend ++ (n.preds ++ [])) ([] ++ restPreds after) :=
            hright.trans within_seqTree_first
          simpa [seqTree, restPreds] using hor
      | opAnd =>
          have hand : g.Within (seqTree (some (joinAnd pend n)) g after)
              (joinPreds (some (joinAnd pend n))) (restPreds after) := within_seqTree_first
          simpa [seqTree, restPreds, joinPreds, preds_joinAnd] using hand
  | cons j before ih =>
      obtain ⟨op', m⟩ := j
      cases op' with
      | opOr =>
          have hor : g.Within (seqTree pend (newConditionNode n .OR m) (before ++ (op, g) :: after))
              (joinPreds pend ++ (newConditionNode n .OR m).preds ++ restPreds before)
              (restPreds after) := ih
          simpa [seqTree, restPreds, newConditionNode, ParseNode.preds] using hor
      | opAnd =>
          have hand : g.Within (seqTree (some (joinAnd pend n)) m (before ++ (op, g) :: after))
              (joinPreds (some (joinAnd pend n)) ++ m.preds ++ restPreds before)
              (restPreds after) := ih
          simpa [seqTree, restPreds, joinPreds, preds_joinAnd] using hand

theorem preds_seqTree :
    (seqTree pend n rest).preds = joinPreds pend ++ n.preds ++ restPreds rest :=
  within_seqTree_first.preds_eq

/-- OR binds tighter than AND in the tree of a sequence of single predicates. -/
theorem truth_seqTree (hrest : ∀ j ∈ rest, ∃ pn, j.2 = .pred pn) (σ : Nat → Bool) :
    (seqTree pend n rest).truth σ =
      (joinTruth σ pend &&
        orFirst (n.truth fun i => σ ((joinPreds pend).length + i))
          (assign (fun i => σ ((joinPreds pend).length + n.preds.length + i))
            (rest.map Prod.fst))) := by
  induction rest generalizing pend n with
  | nil =>
      rw [seqTree, truth_joinAnd]
      rfl
  | cons j rest ih =>
      obtain ⟨op, m⟩ := j
      rw [List.forall_mem_cons] at hrest
      obtain ⟨⟨pn, hpn⟩, hrest⟩ := hrest
      obtain rfl : m = .pred pn := hpn
      cases op with
      | opOr =>
          rw [seqTree, ih hrest]
          simp [newConditionNode, ParseNode.truth, ParseNode.preds, assign, orFirst, Nat.add_assoc,
            Nat.add_comm, Nat.add_left_comm]
      | opAnd =>
          rw [seqTree, ih hrest]
          simp [joinTruth, joinPreds, truth_joinAnd, preds_joinAnd, ParseNode.truth,
            ParseNode.preds, assign, orFirst, Bool.and_assoc, Nat.add_assoc, Nat.add_comm]

end SeqTree

/-! ## Sequences of conditions -/

section Conditions

variable (now : Int64)

/-- A single condition: its tokens and its node. -/
structure Condition where
  toks : List Lexeme
  tree : ParseNode
  atomic : Atomic (ruleValue now) toks tree

/-- An operator and the condition behind it. -/
structure Joined where
  op : SILogicOperator
  conn : Lexeme
  isOp : conn.major = op.terminal
  operand : Condition now

/-- Conditions joined by AND and OR, without parentheses. -/
structure Conditions where
  first : Condition now
  rest : List (Joined now)

variable {now}

theorem Atomic.exists_pred {ts : List Lexeme} {n : ParseNode} (h : Atomic (ruleValue now) ts n) :
    ∃ pn, n = .pred pn := by
  obtain ⟨r, hr, xs, heval, hsem⟩ := h
  have hlength : ∀ r ∈ atomRules, (parserGrammar.rhs r).length = 3 := by decide +kernel
  obtain ⟨x, y, z, rfl⟩ := List.length_eq_three.1 (heval.length_eq.trans (hlength r hr))
  have hfour : r = 7 ∨ r = 8 ∨ r = 9 ∨ r = 10 := by simpa [atomRules] using hr
  -- Any other member at the left faults.
  cases x with
  | yy44 b =>
      rcases hfour with rfl | rfl | rfl | rfl
      · cases y with
        | yy64op op =>
            cases z with
            | yy22 v =>
                cases hsem
                exact ⟨_, rfl⟩
            | _ => cases hsem
        | _ => cases hsem
      · cases z with
        | yy0 tok =>
            cases tok with
            | strval s =>
                cases hsem
                exact ⟨_, rfl⟩
            | _ => cases hsem
        | _ => cases hsem
      · cases hsem
        exact ⟨_, rfl⟩
      · cases z with
        | yy27 vs =>
            cases hsem
            exact ⟨_, rfl⟩
        | _ => cases hsem
  | _ => rcases hfour with rfl | rfl | rfl | rfl <;> cases hsem

def Joined.toks (j : Joined now) : List Lexeme :=
  j.conn :: j.operand.toks

def Joined.node (j : Joined now) : SILogicOperator × ParseNode :=
  (j.op, j.operand.tree)

namespace Conditions

def toks (s : Conditions now) : List Lexeme :=
  s.first.toks ++ s.rest.flatMap Joined.toks

def ops (s : Conditions now) : List SILogicOperator :=
  s.rest.map Joined.op

def preds (s : Conditions now) : List PredicateNode :=
  s.first.tree.preds ++ restPreds (s.rest.map Joined.node)

/-- The truth of the sequence in SQL, where `σ i` is the truth of condition number `i`. -/
def truth (s : Conditions now) (σ : Nat → Bool) : Bool :=
  sqlTruth (σ 0) (assign (fun i => σ (i + 1)) s.ops)

end Conditions

/-- A sequence with parentheses around a part of it: the part, the predicates before and behind it,
and the tokens. -/
inductive Parenthesized :
    Conditions now → Conditions now → List PredicateNode → List PredicateNode → List Lexeme →
      Prop where
  | first {a : Condition now} {part rest : List (Joined now)} {lp rp : Lexeme} :
      lp.major = .LP → rp.major = .RP →
      Parenthesized ⟨a, part ++ rest⟩ ⟨a, part⟩ [] (restPreds (rest.map Joined.node))
        (lp :: (Conditions.toks ⟨a, part⟩ ++ [rp]) ++ rest.flatMap Joined.toks)
  | later {a : Condition now} {before part rest : List (Joined now)} {j : Joined now}
      {lp rp : Lexeme} :
      lp.major = .LP → rp.major = .RP →
      Parenthesized ⟨a, before ++ j :: (part ++ rest)⟩ ⟨j.operand, part⟩
        (Conditions.preds ⟨a, before⟩) (restPreds (rest.map Joined.node))
        (Conditions.toks ⟨a, before⟩ ++ j.conn ::
          (lp :: (Conditions.toks ⟨j.operand, part⟩ ++ [rp]) ++ rest.flatMap Joined.toks))

/-- `ParseQuery` makes the tree of every text with these tokens. -/
def ParsesTo (now : Int64) (toks : List Lexeme) (n : ParseNode) : Prop :=
  ∀ strtod tok c, yylex strtod tok c = toks →
    ∃ msg, parseQuery now strtod tok c = .ok (some n, msg)

theorem parsesTo_of_condSeq {toks : List Lexeme} {n : ParseNode}
    {rest : List (SILogicOperator × ParseNode)} (h : CondSeq (ruleValue now) toks n rest)
    (hfits : Fits now toks) : ParsesTo now toks (seqTree none n rest) := by
  rintro strtod tok c rfl
  have hverdict := verdict_of_condSeq (ruleValue_joins now) h hfits
  rcases parseQuery_spec now strtod tok c with ⟨root, msg, hrun, hroot⟩ | ⟨_, hlong⟩
  · have heq := hroot.unique hverdict
    cases root with
    | none => cases heq
    | some m =>
        obtain rfl : m = seqTree none n rest := by simpa using heq
        exact ⟨msg, hrun⟩
  · exact absurd hverdict hlong.not_verdict

/-- An operand and the conditions behind it. -/
theorem condSeq_joined {ts : List Lexeme} {n : ParseNode} (h : CondSeq (ruleValue now) ts n [])
    (rest : List (Joined now)) :
    CondSeq (ruleValue now) (ts ++ rest.flatMap Joined.toks) n (rest.map Joined.node) := by
  induction rest generalizing ts n with
  | nil => simpa using h
  | cons j rest ih => exact .more h j.isOp (ih (.atom j.operand.atomic))

theorem Conditions.condSeq (s : Conditions now) :
    CondSeq (ruleValue now) s.toks s.first.tree (s.rest.map Joined.node) :=
  condSeq_joined (.atom s.first.atomic) s.rest

/-- The tree of a sequence reads OR first. -/
theorem Conditions.truth_seqTree (s : Conditions now) (σ : Nat → Bool) :
    (seqTree none s.first.tree (s.rest.map Joined.node)).truth σ =
      orFirst (σ 0) (assign (fun i => σ (i + 1)) s.ops) := by
  obtain ⟨pn, hpn⟩ := s.first.atomic.exists_pred
  have hrest : ∀ j ∈ s.rest.map Joined.node, ∃ pn, j.2 = .pred pn := by
    intro k hk
    obtain ⟨j, _, rfl⟩ := List.mem_map.1 hk
    exact j.operand.atomic.exists_pred
  rw [Secondary.truth_seqTree hrest, hpn]
  simp [joinTruth, joinPreds, ParseNode.truth, ParseNode.preds, Conditions.ops, Joined.node,
    Function.comp_def, Nat.add_comm]

/-- What is in parentheses is a part of the tree, as it is parsed alone. -/
theorem parenthesized_first {s part : Conditions now} {before after : List PredicateNode}
    {toks : List Lexeme} (h : Parenthesized s part before after toks) (hfits : Fits now toks)
    (hpart : Fits now part.toks) :
    ∃ n g, ParsesTo now toks n ∧ ParsesTo now part.toks g ∧ g.Within n before after := by
  have hg := parsesTo_of_condSeq part.condSeq hpart
  cases h with
  | @first a part rest lp rp hlp hrp =>
      have hseq := condSeq_joined (.group hlp hrp (Conditions.condSeq ⟨a, part⟩)) rest
      exact ⟨_, _, parsesTo_of_condSeq hseq hfits, hg, within_seqTree_first⟩
  | @later a before part rest j lp rp hlp hrp =>
      have hseq := condSeq_joined (.group hlp hrp (Conditions.condSeq ⟨j.operand, part⟩)) rest
      have hall := (Conditions.condSeq ⟨a, before⟩).append j.isOp hseq
      exact ⟨_, _, parsesTo_of_condSeq hall hfits, hg, within_seqTree_later⟩

end Conditions

/-! ## SQL precedence -/

section Main

variable {now : Int64} {strtod : List UInt8 → Strtod} {tok : Token} {c : List UInt8}

/-- The tree of the sequence has the truth of the sequence in SQL, for all truths of the conditions.
Parentheses around a part of the sequence make the tree of that part a part of the tree. -/
def SqlPrecedence (strtod : List UInt8 → Strtod) (tok : Token) (c : List UInt8)
    (s : Conditions now) : Prop :=
  (∃ n msg, parseQuery now strtod tok c = .ok (some n, msg) ∧ n.preds = s.preds ∧
      ∀ σ, n.truth σ = s.truth σ) ∧
    ∀ part before after toks, Parenthesized s part before after toks → Fits now toks →
      Fits now part.toks →
      ∃ n g, ParsesTo now toks n ∧ ParsesTo now part.toks g ∧ g.Within n before after

/-- `ParseQuery` keeps to SQL exactly on the sequences that are not joined by both AND and OR. -/
theorem parseQuery_sqlPrecedence_iff {s : Conditions now} (hc : yylex strtod tok c = s.toks)
    (hfits : Fits now s.toks) :
    SqlPrecedence strtod tok c s ↔ ¬(.opAnd ∈ s.ops ∧ .opOr ∈ s.ops) := by
  obtain ⟨msg, hrun⟩ := parsesTo_of_condSeq s.condSeq hfits strtod tok c hc
  constructor
  · rintro ⟨⟨n, msg', hn, _, htruth⟩, _⟩ hmixed
    obtain ⟨hroot, _⟩ := Prod.mk.inj (Except.ok.inj (hrun.symm.trans hn))
    obtain rfl := Option.some.inj hroot
    obtain ⟨σ, hσ⟩ := readings_differ hmixed
    exact hσ ((s.truth_seqTree σ).symm.trans (htruth σ))
  · intro hmixed
    refine ⟨⟨_, msg, hrun, ?_, fun σ => ?_⟩, fun _ _ _ _ => parenthesized_first⟩
    · rw [preds_seqTree]
      rfl
    · rw [s.truth_seqTree, readings_agree hmixed]
      rfl

theorem balance_nonpos {ts : List Terminal} (h : .LP ∉ ts) : balance ts ≤ 0 := by
  induction ts with
  | nil => decide
  | cons a ts ih =>
      rw [List.mem_cons, not_or] at h
      have hrest := ih h.2
      have hfirst : terminalBalance a ≤ 0 := by
        cases a <;> first | exact absurd rfl h.1 | decide
      simp only [balance, List.map_cons, List.sum_cons] at hrest ⊢
      omega

/-- Without open parentheses the stack does not get full. -/
theorem fits_of_not_mem {toks : List Lexeme} (h : .LP ∉ toks.map Lexeme.major) :
    Fits now toks := by
  intro rest hover
  obtain ⟨ks, k, ρ, rfl, hρ, hlen⟩ := read_of_overflows hover
  have hread := balance_of_derives hρ.evaluates.derives
  have hnone : .LP ∉ (ks ++ [k]).map Lexeme.major := by
    intro hmem
    apply h
    rw [← List.singleton_append, ← List.append_assoc, List.map_append]
    exact List.mem_append_left _ hmem
  have hbalance : balance ((ks ++ [k]).map (parserActions now).kind) ≤ 0 := balance_nonpos hnone
  have hlength := length_le_of_path hρ.path
  have hbound := stackBound_le (stateno ρ)
  rw [YYSTACKDEPTH] at hlen
  omega

/-- A token in a query of integers, where `n` is the last integer read. -/
def intLexeme (major : Terminal) (n : Int64) (yytext : String) : Lexeme where
  major := major
  minor := .intval n
  yytext := cString (ascii yytext)

/-- `$i = x` -/
def columnEquals (now : Int64) (i x : Int64) (column value : String) : Condition now where
  toks := [intLexeme .ENUMERATOR i column, intLexeme .EQ i "=", intLexeme .INTEGER x value]
  tree := newPredicateNode { name := none, id := i.toInt32.toInt } .EQ (.int64 x)
  atomic :=
    have hprop : Evaluates parserGrammar (parserActions now) (parserGrammar.rhs 23)
        [intLexeme .ENUMERATOR i column] [.yy0 (.intval i)] :=
      .term (k := intLexeme .ENUMERATOR i column) .nil
    have hop : Evaluates parserGrammar (parserActions now) (parserGrammar.rhs 1)
        [intLexeme .EQ i "="] [.yy0 (.intval i)] :=
      .term (k := intLexeme .EQ i "=") .nil
    have hvalue : Evaluates parserGrammar (parserActions now) (parserGrammar.rhs 14)
        [intLexeme .INTEGER x value] [.yy0 (.intval x)] :=
      .term (k := intLexeme .INTEGER x value) .nil
    ⟨7, by decide, _, .rule hprop rfl (.rule hop rfl (.rule hvalue rfl .nil)), rfl⟩

/-- `$1=1`, `$2=2` and `$3=3` with two operators between them. -/
def threeConditions (now : Int64) (op op' : SILogicOperator) (word word' : String) :
    Conditions now where
  first := columnEquals now 1 1 "$1" "1"
  rest := [
    { op := op, conn := intLexeme op.terminal 1 word, isOp := rfl,
      operand := columnEquals now 2 2 "$2" "2" },
    { op := op', conn := intLexeme op'.terminal 2 word', isOp := rfl,
      operand := columnEquals now 3 3 "$3" "3" }]

theorem parseQuery_sqlPrecedence_and :
    SqlPrecedence (fun _ => { val := 0, failed := false, noDigits := true }) (.intval 0)
      (ascii "$1=1 AND $2=2 AND $3=3") (threeConditions 0 .opAnd .opAnd "AND" "AND") :=
  (parseQuery_sqlPrecedence_iff (by decide +kernel) (fits_of_not_mem (by decide +kernel))).2
    (by decide)

/-- `$1=1 OR $2=2 AND $3=3` does not hold where the first condition alone holds. -/
theorem parseQuery_orBeforeAnd :
    ¬SqlPrecedence (fun _ => { val := 0, failed := false, noDigits := true }) (.intval 0)
      (ascii "$1=1 OR $2=2 AND $3=3") (threeConditions 0 .opOr .opAnd "OR" "AND") := by
  rintro ⟨⟨n, msg, hn, _, htruth⟩, _⟩
  have hcode : ((parseQuery 0 (fun _ => { val := 0, failed := false, noDigits := true })
      (.intval 0) (ascii "$1=1 OR $2=2 AND $3=3")).toOption.bind Prod.fst).all
      (fun n => n.truth fun i => decide (i = 0)) = false := by
    decide +kernel
  rw [hn] at hcode
  have hsql := (htruth fun i => decide (i = 0)).symm.trans hcode
  exact absurd hsql (by decide)

end Main

end Secondary
