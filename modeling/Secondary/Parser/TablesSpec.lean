import Mathlib.Tactic.IntervalCases
import Secondary.Parser.Tables

/-!
# TablesSpec — what the tables of `parser.c` guarantee

The finite conditions of `Lib.ShiftReduce` on the tables, checked by evaluating them: the tables only
reduce what is on the stack, and outside of conditions they reduce without looking ahead.
-/

namespace Secondary

open Lib

/-! ## Enumerations -/

def allStates : List YYState :=
  (List.range YYNSTATE).pmap Fin.mk fun _ h => List.mem_range.1 h

def allRules : List YYRule :=
  (List.range YYNRULE).pmap Fin.mk fun _ h => List.mem_range.1 h

theorem mem_allStates (q : YYState) : q ∈ allStates :=
  List.mem_pmap.2 ⟨q.val, List.mem_range.2 q.isLt, rfl⟩

theorem mem_allRules (r : YYRule) : r ∈ allRules :=
  List.mem_pmap.2 ⟨r.val, List.mem_range.2 r.isLt, rfl⟩

/-! ## Reductions -/

theorem alwaysReduces_parserTables : parserTables.AlwaysReduces alwaysReduces := by
  intro q r h a
  rw [alwaysReduces] at h
  split at h
  · next hq =>
      split at h
      · next r' hr =>
          obtain rfl := Option.some.inj h
          simpa [parserTables, yyFindShiftAction, hq] using hr
      · cases h
  · cases h

theorem tablesCheck_parserTables :
    parserTables.tablesCheck alwaysReduces allStates Terminal.all Nonterminal.all = true := by
  decide +kernel

theorem parserTables_checked : parserTables.Checked :=
  ShiftReduce.checked_of_check alwaysReduces_parserTables mem_allStates Terminal.mem_all
    Nonterminal.mem_all tablesCheck_parserTables

/-- All symbols but conditions, and the query around them. -/
def eagerSymbol : Symbol → Bool
  | .t _ => true
  | .n .query => false
  | .n .cond => false
  | .n _ => true

theorem eagerCheck_parserTables :
    parserTables.eagerCheck alwaysReduces allStates allRules eagerSymbol = true := by
  decide +kernel

theorem parserTables_eager : parserTables.Eager fun X => eagerSymbol X = true :=
  ShiftReduce.eager_of_check alwaysReduces_parserTables mem_allStates mem_allRules
    eagerCheck_parserTables

/-- `yyRuleInfo` is about the rules of the grammar. -/
theorem ruleInfo_eq (r : YYRule) :
    ruleInfo r = ((parserGrammar.lhs r).code, (parserGrammar.rhs r).length) := by
  have hall : ∀ r ∈ allRules,
      ruleInfo r = ((parserGrammar.lhs r).code, (parserGrammar.rhs r).length) := by
    decide +kernel
  exact hall r (mem_allRules r)

/-- The rank of a symbol: how many unit rules can be reduced above it. -/
def symbolRank : Symbol → Nat
  | .t _ => 2
  | .n .timestamp => 1
  | .n .cond => 1
  | .n _ => 0

theorem parserGrammar_ranked : ShiftReduce.Ranked parserGrammar 3 symbolRank where
  lt X := by
    cases X with
    | t a => exact Nat.lt_succ_self 2
    | n B => cases B <;> decide
  rhs r := by
    have hall : ∀ r ∈ allRules, parserGrammar.rhs r ≠ [] := by decide +kernel
    exact hall r (mem_allRules r)
  unit r X h := by
    have hall : ∀ r ∈ allRules, (parserGrammar.rhs r).length = 1 →
        ∀ X ∈ parserGrammar.rhs r, symbolRank (.n (parserGrammar.lhs r)) < symbolRank X := by
      decide +kernel
    exact hall r (mem_allRules r) (by rw [h]; rfl) X (by rw [h]; simp)

/-! ## Actions -/

/-- The end of the input is not shifted, it alone is accepted, and there are no other actions than
shifting, reducing, accepting and the error. -/
def actionOk (q : YYState) (a : Terminal) : Bool :=
  let yyact := yyFindShiftAction q a.code
  decide (yyact ≤ YY_ERROR_ACTION) && (decide (YYNSTATE ≤ yyact) || decide (a ≠ .EOI)) &&
    (decide (yyact ≠ YYNSTATE) || decide (a = .EOI))

theorem actionOk_all (q : YYState) (a : Terminal) : actionOk q a = true := by
  have hall : ∀ q ∈ allStates, ∀ a ∈ Terminal.all, actionOk q a = true := by
    decide +kernel
  exact hall q (mem_allStates q) a (Terminal.mem_all a)

end Secondary
