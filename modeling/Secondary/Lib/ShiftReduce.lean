import Mathlib.Logic.Relation
import Secondary.Lib.Grammar

/-!
# ShiftReduce — table-driven shift-reduce parsers with a bounded stack

A parser pushes states along the edges of its tables.  `Checked` is a finite condition on the
tables under which the parser is sound: whatever it accepts is derivable.  The other direction is
told by `Goes`: for symbols whose rules are reduced whatever follows (`Eager`), a derivation moves
the parser along the edge of its symbol.  A run can also end because the stack is full, or because
the action of a rule has no value (`Breaks`).
-/

namespace Secondary
namespace Lib

open Relation

/-- What the tables say for a state and the next token. -/
inductive TableAction (S R : Type) where
  | shift (q : S)
  | reduce (r : R)
  | accept
  | error
  deriving DecidableEq

/-- The tables of a parser; `eoi` is the lookahead after the last token, and `limit` the number of
entries that the stack has room for. -/
structure ShiftReduce (S T N R : Type) where
  grammar : Grammar T N R
  start : S
  action : S → T → TableAction S R
  goto : S → N → Option S
  goal : N
  eoi : T
  limit : Nat

structure Entry (S T N V : Type) where
  state : S
  symbol : Sym T N
  value : V

namespace ShiftReduce

variable {S T N R K V : Type} (m : ShiftReduce S T N R) (A : Actions T R K V)

/-- The state at the top of a stack. -/
def top : List (Entry S T N V) → S
  | [] => m.start
  | e :: _ => e.state

/-- The edge of a symbol. -/
def edge (p : S) : Sym T N → Option S
  | .t a =>
      match m.action p a with
      | .shift q => some q
      | _ => none
  | .n B => m.goto p B

/-- What the stack holds, from the bottom. -/
def symbols (σ : List (Entry S T N V)) : List (Sym T N) :=
  σ.reverse.map Entry.symbol

def values (σ : List (Entry S T N V)) : List V :=
  σ.reverse.map Entry.value

/-- Popping the right side of a rule and pushing its left side. -/
inductive Reduce (r : R) : List (Entry S T N V) → List (Entry S T N V) → Prop where
  | intro {es σ : List (Entry S T N V)} {v : V} {q : S} :
      es.length = (m.grammar.rhs r).length → A.sem r (values es) = some v →
      m.goto (m.top σ) (m.grammar.lhs r) = some q →
      Reduce r (es ++ σ) ({ state := q, symbol := .n (m.grammar.lhs r), value := v } :: σ)

/-- The lookahead. -/
def look : List K → T
  | [] => m.eoi
  | k :: _ => A.kind k

/-- A stack and the tokens that are left. -/
abbrev Config (S T N K V : Type) : Type :=
  List (Entry S T N V) × List K

inductive Step : Config S T N K V → Config S T N K V → Prop where
  | shift {σ : List (Entry S T N V)} {k : K} {ks : List K} {q : S} :
      m.action (m.top σ) (A.kind k) = .shift q → σ.length < m.limit →
      Step (σ, k :: ks) ({ state := q, symbol := .t (A.kind k), value := A.val k } :: σ, ks)
  | reduce {σ τ : List (Entry S T N V)} {ks : List K} {r : R} :
      m.action (m.top σ) (m.look A ks) = .reduce r → m.Reduce A r σ τ → Step (σ, ks) (τ, ks)

abbrev Steps : Config S T N K V → Config S T N K V → Prop :=
  ReflTransGen (m.Step A)

/-- The next token would be shifted, and the stack is full. -/
inductive Full : Config S T N K V → List K → Prop where
  | intro {σ : List (Entry S T N V)} {k : K} {ks : List K} {q : S} :
      m.action (m.top σ) (A.kind k) = .shift q → m.limit ≤ σ.length → Full (σ, k :: ks) ks

/-- The stack gets full before `ks`, the tokens that are left then. -/
def Overflows (c : Config S T N K V) (ks : List K) : Prop :=
  ∃ d, m.Steps A c d ∧ m.Full A d ks

/-- How a run ends: in a stack of one entry whose value is accepted, or without a value.  When
the stack gets full the parser starts again with the tokens that are left. -/
inductive Verdict : Config S T N K V → Option V → Prop where
  | accept {c : Config S T N K V} {e : Entry S T N V} :
      m.Steps A c ([e], []) → m.action e.state m.eoi = .accept → Verdict c (some e.value)
  | error {c : Config S T N K V} {σ : List (Entry S T N V)} {ks : List K} :
      m.Steps A c (σ, ks) → m.action (m.top σ) (m.look A ks) = .error → Verdict c none
  | full {c : Config S T N K V} {ks : List K} {v : Option V} :
      m.Overflows A c ks → Verdict ([], ks) v → Verdict c v

/-- The tables ask for a reduction, and the action of the rule has no value. -/
inductive Broken : Config S T N K V → Prop where
  | intro {es σ : List (Entry S T N V)} {ks : List K} {r : R} :
      m.action (m.top (es ++ σ)) (m.look A ks) = .reduce r →
      es.length = (m.grammar.rhs r).length → A.sem r (values es) = none → Broken (es ++ σ, ks)

/-- On the way, with the restarts of a full stack, the action of a rule has no value. -/
inductive Breaks : Config S T N K V → Prop where
  | here {c d : Config S T N K V} : m.Steps A c d → m.Broken A d → Breaks c
  | full {c : Config S T N K V} {ks : List K} :
      m.Overflows A c ks → Breaks ([], ks) → Breaks c

/-! ## Paths -/

/-- The stack follows the edges of the tables from the start. -/
inductive Path : List (Entry S T N V) → Prop where
  | nil : Path []
  | cons {e : Entry S T N V} {σ : List (Entry S T N V)} :
      m.edge (m.top σ) e.symbol = some e.state → Path σ → Path (e :: σ)

/-- Every path to `q` ends with the symbols, the last one first, after a state where `P` holds. -/
def Pops (P : S → Prop) : List (Sym T N) → S → Prop
  | [], q => P q
  | X :: Xs, q => q ≠ m.start ∧ ∀ p Y, m.edge p Y = some q → Y = X ∧ Pops P Xs p

/-- The finite condition on the tables. -/
structure Checked : Prop where
  reduce : ∀ q a r, m.action q a = .reduce r →
    m.Pops (fun p => (m.goto p (m.grammar.lhs r)).isSome) (m.grammar.rhs r).reverse q
  accept : ∀ q a, m.action q a = .accept → m.Pops (· = m.start) [.n m.goal] q
  start : ∀ p Y, m.edge p Y ≠ some m.start

variable {m A}

theorem Path.drop {σ : List (Entry S T N V)} (h : m.Path σ) (n : Nat) : m.Path (σ.drop n) := by
  induction n generalizing σ with
  | zero => exact h
  | succ n ih =>
      cases h with
      | nil => exact .nil
      | cons _ h => exact ih h

/-- Popping finds the symbols of the certificate. -/
theorem Path.pops {P : S → Prop} {Xs : List (Sym T N)} {σ : List (Entry S T N V)} (h : m.Path σ)
    (hpops : m.Pops P Xs (m.top σ)) :
    Xs.length ≤ σ.length ∧ (σ.take Xs.length).map Entry.symbol = Xs ∧
      P (m.top (σ.drop Xs.length)) := by
  induction Xs generalizing σ with
  | nil => exact ⟨Nat.zero_le _, rfl, hpops⟩
  | cons X Xs ih =>
      cases h with
      | nil => exact absurd rfl hpops.1
      | @cons e σ hedge h =>
          obtain ⟨hsymbol, hrest⟩ := hpops.2 _ _ hedge
          obtain ⟨hlength, hsymbols, hP⟩ := ih h hrest
          exact ⟨by simpa using hlength, by simp [hsymbol, hsymbols], hP⟩

/-- The start state is only at the bottom. -/
theorem Path.eq_nil {σ : List (Entry S T N V)} (hm : m.Checked) (h : m.Path σ)
    (htop : m.top σ = m.start) : σ = [] := by
  cases h with
  | nil => rfl
  | cons hedge _ =>
      rw [top] at htop
      rw [htop] at hedge
      exact absurd hedge (hm.start _ _)

/-! ## Determinism -/

theorem Reduce.unique {r : R} {σ τ τ' : List (Entry S T N V)} (h : m.Reduce A r σ τ)
    (h' : m.Reduce A r σ τ') : τ = τ' := by
  obtain ⟨hlen, hsem, hgoto⟩ := h
  rename_i es σ v q
  generalize hσ : es ++ σ = ρ at h'
  obtain ⟨hlen', hsem', hgoto'⟩ := h'
  obtain ⟨rfl, rfl⟩ := List.append_inj hσ (hlen.trans hlen'.symm)
  obtain rfl := Option.some.inj (hsem.symm.trans hsem')
  obtain rfl := Option.some.inj (hgoto.symm.trans hgoto')
  rfl

theorem step_rightUnique : Relator.RightUnique (m.Step A (V := V)) := by
  rintro c d d' h h'
  cases h with
  | shift hact hroom =>
      cases h' with
      | shift hact' _ =>
          obtain rfl := TableAction.shift.inj (hact.symm.trans hact')
          rfl
      | reduce hact' _ => cases hact.symm.trans hact'
  | reduce hact hred =>
      cases h' with
      | shift hact' _ => cases hact.symm.trans hact'
      | reduce hact' hred' =>
          obtain rfl := TableAction.reduce.inj (hact.symm.trans hact')
          rw [hred.unique hred']

/-- No step leads on. -/
def Stopped (m : ShiftReduce S T N R) (A : Actions T R K V) (c : Config S T N K V) : Prop :=
  ∀ d, ¬m.Step A c d

theorem stopped_of_accept {σ : List (Entry S T N V)} {ks : List K}
    (hact : m.action (m.top σ) (m.look A ks) = .accept) : m.Stopped A (σ, ks) := by
  intro d hstep
  cases hstep with
  | shift hact' _ => cases hact.symm.trans hact'
  | reduce hact' _ => cases hact.symm.trans hact'

theorem stopped_of_error {σ : List (Entry S T N V)} {ks : List K}
    (hact : m.action (m.top σ) (m.look A ks) = .error) : m.Stopped A (σ, ks) := by
  intro d hstep
  cases hstep with
  | shift hact' _ => cases hact.symm.trans hact'
  | reduce hact' _ => cases hact.symm.trans hact'

theorem Full.stopped {c : Config S T N K V} {ks : List K} (h : m.Full A c ks) : m.Stopped A c := by
  obtain ⟨hact, hfull⟩ := h
  intro d hstep
  cases hstep with
  | shift _ hroom => exact Nat.not_le_of_lt hroom hfull
  | reduce hact' _ => cases hact.symm.trans hact'

theorem Broken.stopped {c : Config S T N K V} (h : m.Broken A c) : m.Stopped A c := by
  obtain @⟨es, σ, ks, r, hact, hlen, hnone⟩ := h
  intro d hstep
  generalize hσ : es ++ σ = ρ at hact hstep
  cases hstep with
  | shift hact' _ => cases hact.symm.trans hact'
  | reduce hact' hred =>
      obtain rfl := TableAction.reduce.inj (hact.symm.trans hact')
      obtain ⟨hlen', hsome, _⟩ := hred
      obtain ⟨rfl, rfl⟩ := List.append_inj hσ (hlen.trans hlen'.symm)
      cases hnone.symm.trans hsome

/-- A run gets to the same end whatever it is asked about. -/
theorem Steps.unique {c d d' : Config S T N K V} (h : m.Steps A c d) (h' : m.Steps A c d')
    (hd : m.Stopped A d) (hd' : m.Stopped A d') : d = d' := by
  rcases ReflTransGen.total_of_right_unique step_rightUnique h h' with hdd | hdd
  · rcases hdd.cases_head with heq | ⟨e, hstep, _⟩
    · exact heq
    · exact absurd hstep (hd e)
  · rcases hdd.cases_head with heq | ⟨e, hstep, _⟩
    · exact heq.symm
    · exact absurd hstep (hd' e)

/-- A run that stops comes by wherever the run can get. -/
theorem Steps.of_stopped {c d d' : Config S T N K V} (h' : m.Steps A c d') (h : m.Steps A c d)
    (hd' : m.Stopped A d') : m.Steps A d d' := by
  rcases ReflTransGen.total_of_right_unique step_rightUnique h h' with hdd | hdd
  · exact hdd
  · rcases hdd.cases_head with rfl | ⟨e, hstep, _⟩
    · exact .refl
    · exact absurd hstep (hd' e)

theorem Overflows.unique {c : Config S T N K V} {ks ks' : List K} (h : m.Overflows A c ks)
    (h' : m.Overflows A c ks') : ks = ks' := by
  obtain ⟨d, hsteps, hfull⟩ := h
  obtain ⟨d', hsteps', hfull'⟩ := h'
  obtain rfl := hsteps.unique hsteps' hfull.stopped hfull'.stopped
  cases hfull with
  | intro _ _ =>
      cases hfull' with
      | intro _ _ => rfl

/-- A run has one end. -/
theorem Verdict.unique {c : Config S T N K V} {v w : Option V} (h : m.Verdict A c v)
    (h' : m.Verdict A c w) : v = w := by
  -- Two runs stop at the same configuration, and it says which kind of verdict this is.
  induction h generalizing w with
  | accept hsteps hact =>
      cases h' with
      | accept hsteps' hact' =>
          have heq := hsteps.unique hsteps' (stopped_of_accept hact) (stopped_of_accept hact')
          obtain ⟨heq, _⟩ := Prod.mk.inj heq
          rw [(List.cons.inj heq).1]
      | error hsteps' hact' =>
          have heq := hsteps.unique hsteps' (stopped_of_accept hact) (stopped_of_error hact')
          obtain ⟨rfl, rfl⟩ := Prod.mk.inj heq
          cases hact.symm.trans hact'
      | full hover _ =>
          obtain ⟨d, hsteps', hfull⟩ := hover
          obtain rfl := hsteps.unique hsteps' (stopped_of_accept hact) hfull.stopped
          cases hfull
  | error hsteps hact =>
      cases h' with
      | accept hsteps' hact' =>
          have heq := hsteps.unique hsteps' (stopped_of_error hact) (stopped_of_accept hact')
          obtain ⟨rfl, rfl⟩ := Prod.mk.inj heq
          cases hact.symm.trans hact'
      | error _ _ => rfl
      | full hover _ =>
          obtain ⟨d, hsteps', hfull⟩ := hover
          obtain rfl := hsteps.unique hsteps' (stopped_of_error hact) hfull.stopped
          obtain ⟨hact', _⟩ := hfull
          cases hact.symm.trans hact'
  | full hover _ ih =>
      cases h' with
      | accept hsteps' hact' =>
          obtain ⟨d, hsteps, hfull⟩ := hover
          obtain rfl := hsteps.unique hsteps' hfull.stopped (stopped_of_accept hact')
          cases hfull
      | error hsteps' hact' =>
          obtain ⟨d, hsteps, hfull⟩ := hover
          obtain rfl := hsteps.unique hsteps' hfull.stopped (stopped_of_error hact')
          obtain ⟨hact, _⟩ := hfull
          cases hact.symm.trans hact'
      | full hover' hrest' =>
          obtain rfl := hover.unique hover'
          exact ih hrest'

theorem Verdict.of_steps {c d : Config S T N K V} (h : m.Steps A c d) {v : Option V}
    (hd : m.Verdict A d v) : m.Verdict A c v := by
  cases hd with
  | accept hsteps hact => exact .accept (h.trans hsteps) hact
  | error hsteps hact => exact .error (h.trans hsteps) hact
  | full hover hrest =>
      obtain ⟨e, hsteps, hfull⟩ := hover
      exact .full ⟨e, h.trans hsteps, hfull⟩ hrest

/-- The verdict after an overflow is that of the tokens that are left. -/
theorem Overflows.verdict_iff {c : Config S T N K V} {ks : List K} {v : Option V}
    (h : m.Overflows A c ks) : m.Verdict A c v ↔ m.Verdict A ([], ks) v := by
  constructor
  · intro hverdict
    cases hverdict with
    | accept hsteps hact =>
        obtain ⟨d, hsteps', hfull⟩ := h
        obtain rfl := hsteps.unique hsteps' (stopped_of_accept hact) hfull.stopped
        cases hfull
    | error hsteps hact =>
        obtain ⟨d, hsteps', hfull⟩ := h
        obtain rfl := hsteps.unique hsteps' (stopped_of_error hact) hfull.stopped
        obtain ⟨hact', _⟩ := hfull
        cases hact.symm.trans hact'
    | full hover' hrest =>
        rw [h.unique hover']
        exact hrest
  · exact .full h

theorem Broken.action {c : Config S T N K V} (h : m.Broken A c) :
    ∃ r, m.action (m.top c.1) (m.look A c.2) = .reduce r := by
  obtain ⟨hact, _, _⟩ := h
  exact ⟨_, hact⟩

/-- A run that breaks has no verdict. -/
theorem Breaks.not_verdict {c : Config S T N K V} {v : Option V} (h : m.Breaks A c) :
    ¬m.Verdict A c v := by
  induction h with
  | here hsteps hbroken =>
      obtain ⟨r, hreduce⟩ := hbroken.action
      intro hverdict
      cases hverdict with
      | accept hsteps' hact =>
          obtain rfl := hsteps.unique hsteps' hbroken.stopped (stopped_of_accept hact)
          cases hact.symm.trans hreduce
      | error hsteps' hact =>
          obtain rfl := hsteps.unique hsteps' hbroken.stopped (stopped_of_error hact)
          cases hact.symm.trans hreduce
      | full hover _ =>
          obtain ⟨e, hsteps', hfull⟩ := hover
          obtain rfl := hsteps.unique hsteps' hbroken.stopped hfull.stopped
          obtain ⟨hact, _⟩ := hfull
          cases hact.symm.trans hreduce
  | full hover _ ih => exact fun hverdict => ih (hover.verdict_iff.1 hverdict)

/-- Where the run gets to, it still breaks. -/
theorem Breaks.of_steps {c d : Config S T N K V} (h : m.Steps A c d) (hd : m.Breaks A d) :
    m.Breaks A c := by
  cases hd with
  | here hsteps hbroken => exact .here (h.trans hsteps) hbroken
  | full hover hrest =>
      obtain ⟨e, hsteps, hfull⟩ := hover
      exact .full ⟨e, h.trans hsteps, hfull⟩ hrest

/-! ## More actions with a value -/

section Extend

variable {sem : R → List V → Option V} {c d : Config S T N K V} {ks : List K} {v : Option V}

/-- With values for more of the actions a run is the same, up to where it breaks without them. -/
theorem Steps.of_extended (hsem : ∀ r xs w, A.sem r xs = some w → sem r xs = some w)
    (h : m.Steps { A with sem := sem } c d) : m.Steps A c d ∨ m.Breaks A c := by
  induction h with
  | refl => exact Or.inl .refl
  | tail _ hstep ih =>
      rcases ih with hsteps | hbreaks
      · cases hstep with
        | shift hact hroom => exact Or.inl (hsteps.tail (.shift hact hroom))
        | @reduce _ _ _ r hact hred =>
            obtain @⟨es, σ, w, q, hlen, hw, hgoto⟩ := hred
            cases hvalue : A.sem r (values es) with
            | none => exact Or.inr (.here hsteps (.intro hact hlen hvalue))
            | some w' =>
                obtain rfl : w' = w := Option.some.inj ((hsem _ _ _ hvalue).symm.trans hw)
                exact Or.inl (hsteps.tail (.reduce hact (.intro hlen hvalue hgoto)))
      · exact Or.inr hbreaks

theorem Overflows.of_extended (hsem : ∀ r xs w, A.sem r xs = some w → sem r xs = some w)
    (h : m.Overflows { A with sem := sem } c ks) : m.Overflows A c ks ∨ m.Breaks A c := by
  obtain ⟨d, hsteps, hact, hfull⟩ := h
  rcases hsteps.of_extended hsem with hsteps | hbreaks
  · exact Or.inl ⟨_, hsteps, .intro hact hfull⟩
  · exact Or.inr hbreaks

theorem Verdict.of_extended (hsem : ∀ r xs w, A.sem r xs = some w → sem r xs = some w)
    (h : m.Verdict { A with sem := sem } c v) : m.Verdict A c v ∨ m.Breaks A c := by
  induction h with
  | accept hsteps hact =>
      rcases Steps.of_extended hsem hsteps with hsteps | hbreaks
      · exact Or.inl (.accept hsteps hact)
      · exact Or.inr hbreaks
  | error hsteps hact =>
      rcases Steps.of_extended hsem hsteps with hsteps | hbreaks
      · exact Or.inl (.error hsteps hact)
      · exact Or.inr hbreaks
  | full hover _ ih =>
      rcases Overflows.of_extended hsem hover with hover | hbreaks
      · exact ih.imp (.full hover) (.full hover)
      · exact Or.inr hbreaks

end Extend

/-! ## Soundness -/

/-- The stack follows the tables, and derives the tokens that were read. -/
structure Valid (m : ShiftReduce S T N R) (A : Actions T R K V) (σ : List (Entry S T N V))
    (ks : List K) : Prop where
  path : m.Path σ
  evaluates : Evaluates m.grammar A (symbols σ) ks (values σ)

theorem valid_nil : m.Valid A [] [] :=
  ⟨.nil, .nil⟩

theorem Valid.shift {σ : List (Entry S T N V)} {ks : List K} (h : m.Valid A σ ks) {k : K} {q : S}
    (hshift : m.action (m.top σ) (A.kind k) = .shift q) :
    m.Valid A ({ state := q, symbol := .t (A.kind k), value := A.val k } :: σ) (ks ++ [k]) where
  path := .cons (by simp [edge, hshift]) h.path
  evaluates := by
    simp only [symbols, values, List.reverse_cons, List.map_append]
    exact h.evaluates.append (.term .nil)

/-- The tokens split where the stack does. -/
theorem Valid.split {es τ : List (Entry S T N V)} {ks : List K} (h : m.Valid A (es ++ τ) ks) :
    ∃ us ws, ks = us ++ ws ∧ Evaluates m.grammar A (symbols τ) us (values τ) ∧
      Evaluates m.grammar A (symbols es) ws (values es) := by
  have hsplit := h.evaluates
  rw [symbols, List.reverse_append, List.map_append] at hsplit
  obtain ⟨us, ws, xs, ys, rfl, hvalues, hbelow, habove⟩ := hsplit.split
  have hlen := hbelow.length_eq
  rw [values, List.reverse_append, List.map_append] at hvalues
  obtain ⟨rfl, rfl⟩ := List.append_inj hvalues (by simp [hlen])
  exact ⟨us, ws, rfl, hbelow, habove⟩

/-- The entries that a rule pops are its right side. -/
theorem Valid.symbols_top (hm : m.Checked) {es τ : List (Entry S T N V)} {ks : List K}
    (h : m.Valid A (es ++ τ) ks) {a : T} {r : R} (hact : m.action (m.top (es ++ τ)) a = .reduce r)
    (hlength : es.length = (m.grammar.rhs r).length) : symbols es = m.grammar.rhs r := by
  obtain ⟨_, hsymbols, _⟩ := h.path.pops (hm.reduce _ _ _ hact)
  rw [List.length_reverse, ← hlength, List.take_left] at hsymbols
  rw [symbols, List.map_reverse, hsymbols, List.reverse_reverse]

theorem Valid.reduce {σ τ : List (Entry S T N V)} {ks : List K} (hm : m.Checked)
    (h : m.Valid A σ ks) {a : T} {r : R} (hact : m.action (m.top σ) a = .reduce r)
    (hred : m.Reduce A r σ τ) : m.Valid A τ ks := by
  obtain ⟨hlength, hsem, hgoto⟩ := hred
  rename_i es σ v q
  have hrhs := h.symbols_top hm hact hlength
  refine ⟨.cons hgoto ?_, ?_⟩
  · simpa using h.path.drop es.length
  · obtain ⟨us, ws, rfl, hbelow, habove⟩ := h.split
    simp only [symbols, values, List.reverse_cons, List.map_append]
    refine hbelow.append ?_
    rw [← List.append_nil ws]
    refine .rule ?_ hsem .nil
    rw [← hrhs]
    exact habove

/-- A run keeps the stack valid for the tokens that it has read. -/
theorem Steps.valid (hm : m.Checked) {c d : Config S T N K V} (h : m.Steps A c d) {ks ts : List K}
    (hc : m.Valid A c.1 ks) (hts : ts = ks ++ c.2) :
    ∃ ks', ts = ks' ++ d.2 ∧ m.Valid A d.1 ks' := by
  induction h with
  | refl => exact ⟨ks, hts, hc⟩
  | tail _ hstep ih =>
      obtain ⟨ks', rfl, hvalid⟩ := ih
      cases hstep with
      | @shift σ k rest q hshift _ => exact ⟨ks' ++ [k], by simp, hvalid.shift hshift⟩
      | reduce hact hred => exact ⟨ks', rfl, hvalid.reduce hm hact hred⟩

/-- What the parser accepts is derivable from its goal, with the value at the top. -/
theorem Valid.accept (hm : m.Checked) {σ : List (Entry S T N V)} {ks : List K}
    (h : m.Valid A σ ks) {a : T} (hact : m.action (m.top σ) a = .accept) :
    ∃ e, σ = [e] ∧ e.symbol = .n m.goal ∧
      Evaluates m.grammar A [.n m.goal] ks [e.value] := by
  obtain ⟨hlength, hsymbol, hstart⟩ := h.path.pops (hm.accept _ _ hact)
  cases σ with
  | nil => cases hlength
  | cons e σ =>
      obtain rfl : σ = [] := (h.path.drop 1).eq_nil hm hstart
      have hgoal : e.symbol = .n m.goal := by simpa using hsymbol
      refine ⟨e, rfl, hgoal, ?_⟩
      have heval := h.evaluates
      simp only [symbols, values, List.reverse_singleton, List.map_singleton, hgoal] at heval
      exact heval

/-! ## Progress -/

/-- The values on the stack have the types of their symbols. -/
theorem Valid.typed {Typed : Sym T N → V → Prop} (hA : TypedActions m.grammar A Typed)
    {σ : List (Entry S T N V)} {ks : List K} (h : m.Valid A σ ks)
    (hks : ∀ k ∈ ks, Typed (.t (A.kind k)) (A.val k)) {e : Entry S T N V} (he : e ∈ σ) :
    Typed e.symbol e.value := by
  have htyped := h.evaluates.typed hA hks
  rw [symbols, values, List.forall₂_map_left_iff, List.forall₂_map_right_iff,
    List.forall₂_same] at htyped
  exact htyped e (List.mem_reverse.2 he)

theorem Valid.typed_values {Typed : Sym T N → V → Prop} (hA : TypedActions m.grammar A Typed)
    {es τ : List (Entry S T N V)} {ks : List K} (h : m.Valid A (es ++ τ) ks)
    (hks : ∀ k ∈ ks, Typed (.t (A.kind k)) (A.val k)) :
    List.Forall₂ Typed (symbols es) (values es) := by
  rw [symbols, values, List.forall₂_map_left_iff, List.forall₂_map_right_iff, List.forall₂_same]
  intro e he
  exact h.typed hA hks (List.mem_append_left τ (List.mem_reverse.1 he))

/-- Where the tables ask for a reduction the right side is on the stack, and there is an edge for the
left side. -/
theorem Valid.exists_reduce (hm : m.Checked) {σ : List (Entry S T N V)} {ks : List K}
    (h : m.Valid A σ ks) {a : T} {r : R} (hact : m.action (m.top σ) a = .reduce r) :
    ∃ es τ q, σ = es ++ τ ∧ symbols es = m.grammar.rhs r ∧
      m.goto (m.top τ) (m.grammar.lhs r) = some q := by
  obtain ⟨_, hsymbols, hgoto⟩ := h.path.pops (hm.reduce _ _ _ hact)
  rw [List.length_reverse] at hsymbols hgoto
  obtain ⟨q, hq⟩ := Option.isSome_iff_exists.1 hgoto
  refine ⟨_, _, q, (List.take_append_drop _ σ).symm, ?_, hq⟩
  rw [symbols, List.map_reverse, hsymbols, List.reverse_reverse]

/-- Unit rules go down in rank, and ranks are below `w`. -/
structure Ranked (g : Grammar T N R) (w : Nat) (rank : Sym T N → Nat) : Prop where
  lt : ∀ X, rank X < w
  rhs : ∀ r, g.rhs r ≠ []
  unit : ∀ r X, g.rhs r = [X] → rank (.n (g.lhs r)) < rank X

/-- A bound of the reductions that a stack admits before the next shift. -/
def potential (w : Nat) (rank : Sym T N → Nat) : List (Entry S T N V) → Nat
  | [] => 0
  | e :: σ => w * σ.length + rank e.symbol + 1

theorem Reduce.potential_lt {w : Nat} {rank : Sym T N → Nat} (hrank : Ranked m.grammar w rank)
    {es τ : List (Entry S T N V)} {e : Entry S T N V} {r : R}
    (hsymbols : symbols es = m.grammar.rhs r) (he : e.symbol = .n (m.grammar.lhs r)) :
    potential w rank (e :: τ) < potential w rank (es ++ τ) := by
  have hne := hrank.rhs r
  rw [← hsymbols] at hne
  cases es with
  | nil => exact absurd rfl hne
  | cons d es =>
      rw [potential, List.cons_append, potential, List.length_append, he]
      cases es with
      | nil =>
          -- A unit rule.
          have hunit := hrank.unit r d.symbol (by rw [← hsymbols]; rfl)
          simpa using hunit
      | cons c es =>
          have hlt := hrank.lt (.n (m.grammar.lhs r))
          have hmul : w * τ.length + w ≤ w * (es.length + 1 + τ.length) := by
            rw [← Nat.mul_succ]
            exact Nat.mul_le_mul_left w (by omega)
          simp only [List.length_cons]
          omega

/-! ## Runs along derivations -/

/-- The parser gets from `c` to `d`, or its stack gets full on the way. -/
def Reaches (m : ShiftReduce S T N R) (A : Actions T R K V) (c d : Config S T N K V) : Prop :=
  m.Steps A c d ∨ ∃ ks, m.Overflows A c ks

theorem Reaches.refl (c : Config S T N K V) : m.Reaches A c c :=
  Or.inl .refl

theorem Reaches.trans {c d e : Config S T N K V} (h : m.Reaches A c d) (h' : m.Reaches A d e) :
    m.Reaches A c e := by
  rcases h with hcd | hfull
  · rcases h' with hde | ⟨ks, d', hde, hfull⟩
    · exact Or.inl (hcd.trans hde)
    · exact Or.inr ⟨ks, d', hcd.trans hde, hfull⟩
  · exact Or.inr hfull

theorem reaches_shift {σ : List (Entry S T N V)} {k : K} {q : S}
    (hact : m.action (m.top σ) (A.kind k) = .shift q) (ks : List K) :
    m.Reaches A (σ, k :: ks)
      ({ state := q, symbol := .t (A.kind k), value := A.val k } :: σ, ks) := by
  by_cases hroom : σ.length < m.limit
  · exact Or.inl (.single (.shift hact hroom))
  · exact Or.inr ⟨ks, _, .refl, .intro hact (Nat.le_of_not_lt hroom)⟩

theorem reaches_reduce {es σ : List (Entry S T N V)} {ks : List K} {r : R} {v : V} {q : S}
    (hact : m.action (m.top (es ++ σ)) (m.look A ks) = .reduce r)
    (hsymbols : symbols es = m.grammar.rhs r) (hsem : A.sem r (values es) = some v)
    (hgoto : m.goto (m.top σ) (m.grammar.lhs r) = some q) :
    m.Reaches A (es ++ σ, ks)
      ({ state := q, symbol := .n (m.grammar.lhs r), value := v } :: σ, ks) := by
  have hlength : es.length = (m.grammar.rhs r).length := by
    rw [← hsymbols, symbols, List.length_map, List.length_reverse]
  exact Or.inl (.single (.reduce hact (.intro hlength hsem hgoto)))

/-- From a stack at `p` the tokens move the parser to `q`, under the symbol and with the value,
whatever token follows. -/
def Goes (m : ShiftReduce S T N R) (A : Actions T R K V) (p : S) (X : Sym T N) (ks : List K) (v : V)
    (q : S) : Prop :=
  ∀ σ, m.top σ = p → ∀ ts,
    m.Reaches A (σ, ks ++ ts) ({ state := q, symbol := X, value := v } :: σ, ts)

/-- The state after the symbols. -/
def walk (m : ShiftReduce S T N R) (p : S) : List (Sym T N) → Option S
  | [] => some p
  | X :: Xs => (m.edge p X).bind fun q => m.walk q Xs

/-- From `p` the right side of the rule leads to a state that reduces by it, whatever follows. -/
def EagerAt (m : ShiftReduce S T N R) (r : R) (p : S) : Prop :=
  ∃ q, m.walk p (m.grammar.rhs r) = some q ∧ ∀ a, m.action q a = .reduce r

/-- The nonterminals of `D` are derived from each other alone, and reduced whatever follows. -/
def Eager (m : ShiftReduce S T N R) (D : Sym T N → Prop) : Prop :=
  ∀ r, D (.n (m.grammar.lhs r)) → (∀ X ∈ m.grammar.rhs r, D X) ∧
    ∀ p, (m.goto p (m.grammar.lhs r)).isSome → m.EagerAt r p

section Eager

variable {D : Sym T N → Prop} {Xs : List (Sym T N)} {ks : List K} {vs : List V} {p q : S}

/-- A derivation of eager symbols moves the parser along their edges. -/
theorem runs_of_evaluates (hm : m.Eager D) (h : Evaluates m.grammar A Xs ks vs)
    (hXs : ∀ X ∈ Xs, D X) (hwalk : m.walk p Xs = some q) (σ : List (Entry S T N V))
    (hσ : m.top σ = p) (ts : List K) :
    ∃ es, m.Reaches A (σ, ks ++ ts) (es ++ σ, ts) ∧ symbols es = Xs ∧ values es = vs ∧
      m.top (es ++ σ) = q := by
  -- Along the derivation: the automaton walks as it would on the symbols of the right side.
  induction h generalizing p q σ ts with
  | nil =>
      obtain rfl := Option.some.inj hwalk
      exact ⟨[], .refl _, rfl, rfl, hσ⟩
  | @term l Xs ks vs _ ih =>
      obtain ⟨p', hedge, hrest⟩ := Option.bind_eq_some_iff.1 hwalk
      have hact : m.action (m.top σ) (A.kind l) = .shift p' := by
        rw [hσ]
        rw [edge] at hedge
        split at hedge
        · next q' hq => rw [hq, Option.some.inj hedge]
        · cases hedge
      obtain ⟨es, hruns, hsymbols, hvalues, htop⟩ :=
        ih (fun X hX => hXs X (List.mem_cons_of_mem _ hX)) hrest
          ({ state := p', symbol := .t (A.kind l), value := A.val l } :: σ) rfl ts
      refine ⟨es ++ [{ state := p', symbol := .t (A.kind l), value := A.val l }], ?_, ?_, ?_, ?_⟩
      · rw [List.append_assoc]
        exact (reaches_shift hact _).trans hruns
      · simp [symbols, ← hsymbols]
      · simp [values, ← hvalues]
      · simpa using htop
  | @rule r Xs us ks xs vs v hr hsem _ ihr ih =>
      rw [List.forall_mem_cons] at hXs
      obtain ⟨p', hedge, hrest⟩ := Option.bind_eq_some_iff.1 hwalk
      have hgoto : m.goto p (m.grammar.lhs r) = some p' := hedge
      obtain ⟨hD, heager⟩ := hm r hXs.1
      obtain ⟨q', hwalk', hreduce⟩ := heager p (by simp [hgoto])
      obtain ⟨ds, hruns, hsymbols, hvalues, htop⟩ := ihr hD hwalk' σ hσ (ks ++ ts)
      -- The rule is reduced whatever the rest of the tokens begins with.
      have hred : m.Reaches A (ds ++ σ, ks ++ ts)
          ({ state := p', symbol := .n (m.grammar.lhs r), value := v } :: σ, ks ++ ts) :=
        reaches_reduce (by rw [htop, hreduce]) hsymbols (by rw [hvalues, hsem])
          (by rw [hσ, hgoto])
      obtain ⟨es, hruns', hsymbols', hvalues', htop'⟩ :=
        ih hXs.2 hrest ({ state := p', symbol := .n (m.grammar.lhs r), value := v } :: σ) rfl ts
      refine ⟨es ++ [{ state := p', symbol := .n (m.grammar.lhs r), value := v }], ?_, ?_, ?_, ?_⟩
      · rw [List.append_assoc, List.append_assoc]
        exact (hruns.trans hred).trans hruns'
      · simp [symbols, ← hsymbols']
      · simp [values, ← hvalues']
      · simpa using htop'

/-- A rule over eager symbols that is reduced whatever follows. -/
theorem goes_rule (hm : m.Eager D) {r : R} (hrhs : ∀ X ∈ m.grammar.rhs r, D X)
    (hr : m.EagerAt r p) (hgoto : m.goto p (m.grammar.lhs r) = some q)
    (h : Evaluates m.grammar A (m.grammar.rhs r) ks vs) {v : V} (hsem : A.sem r vs = some v) :
    m.Goes A p (.n (m.grammar.lhs r)) ks v q := by
  intro σ hσ ts
  obtain ⟨q', hwalk, hreduce⟩ := hr
  obtain ⟨es, hruns, hsymbols, hvalues, htop⟩ := runs_of_evaluates hm h hrhs hwalk σ hσ ts
  refine hruns.trans (reaches_reduce ?_ hsymbols ?_ ?_)
  · rw [htop, hreduce]
  · rw [hvalues, hsem]
  · rw [hσ, hgoto]

end Eager

/-! ## Checking the tables -/

section Check

/-- The states that `always` gives a rule reduce by it, whatever follows. -/
def AlwaysReduces (m : ShiftReduce S T N R) (always : S → Option R) : Prop :=
  ∀ q r, always q = some r → ∀ a, m.action q a = .reduce r

variable (m) (always : S → Option R) (states : List S) (terminals : List T) (nonterminals : List N)

/-- The symbols that can have an edge at a state. -/
def symbolsAt (p : S) : List (Sym T N) :=
  (if (always p).isSome then [] else terminals.map Sym.t) ++ nonterminals.map Sym.n

/-- The edges of the tables over the given states and symbols. -/
def edges : List (S × Sym T N × S) :=
  states.flatMap fun p =>
    (symbolsAt always terminals nonterminals p).filterMap fun X =>
      (m.edge p X).map fun q => (p, X, q)

variable {m always states terminals nonterminals}

theorem mem_edges (hA : m.AlwaysReduces always) (hS : ∀ q, q ∈ states) (hT : ∀ a, a ∈ terminals)
    (hN : ∀ B, B ∈ nonterminals) {p q : S} {X : Sym T N} (h : m.edge p X = some q) :
    (p, X, q) ∈ m.edges always states terminals nonterminals := by
  refine List.mem_flatMap.2 ⟨p, hS p, List.mem_filterMap.2 ⟨X, ?_, by simp [h]⟩⟩
  cases X with
  | t a =>
      refine List.mem_append_left _ ?_
      cases halways : always p with
      | none => exact List.mem_map_of_mem (hT a)
      | some r =>
          rw [edge, hA p r halways a] at h
          cases h
  | n B => exact List.mem_append_right _ (List.mem_map_of_mem (hN B))

section Pops

variable [DecidableEq S] [DecidableEq T] [DecidableEq N]

variable (m always states terminals nonterminals)

/-- The edges to a state. -/
def preds (q : S) : List (S × Sym T N) :=
  (m.edges always states terminals nonterminals).filterMap fun e =>
    if e.2.2 = q then some (e.1, e.2.1) else none

/-- `Pops`, by going back over the edges. -/
def popsCheck (P : S → Bool) : List (Sym T N) → S → Bool
  | [], q => P q
  | X :: Xs, q =>
      decide (q ≠ m.start) &&
        (m.preds always states terminals nonterminals q).all fun e =>
          decide (e.2 = X) && popsCheck P Xs e.1

/-- `Checked`, for one action of a state. -/
def actionCheck (q : S) : TableAction S R → Bool
  | .reduce r =>
      m.popsCheck always states terminals nonterminals
        (fun p => (m.goto p (m.grammar.lhs r)).isSome) (m.grammar.rhs r).reverse q
  | .accept =>
      m.popsCheck always states terminals nonterminals (fun p => decide (p = m.start))
        [.n m.goal] q
  | .shift _ => true
  | .error => true

/-- `Checked`, for one state. -/
def stateCheck (q : S) : Bool :=
  match always q with
  | some r => m.actionCheck always states terminals nonterminals q (.reduce r)
  | none =>
      terminals.all fun a =>
        m.actionCheck always states terminals nonterminals q (m.action q a)

def tablesCheck : Bool :=
  ((m.edges always states terminals nonterminals).all fun e => decide (e.2.2 ≠ m.start)) &&
    states.all fun q => m.stateCheck always states terminals nonterminals q

variable {m always states terminals nonterminals}

theorem pops_of_check (hA : m.AlwaysReduces always) (hS : ∀ q, q ∈ states) (hT : ∀ a, a ∈ terminals)
    (hN : ∀ B, B ∈ nonterminals) {P : S → Bool} {Xs : List (Sym T N)} {q : S}
    (h : m.popsCheck always states terminals nonterminals P Xs q = true) :
    m.Pops (fun p => P p = true) Xs q := by
  induction Xs generalizing q with
  | nil => exact h
  | cons X Xs ih =>
      rw [popsCheck, Bool.and_eq_true, decide_eq_true_eq, List.all_eq_true] at h
      refine ⟨h.1, fun p Y hedge => ?_⟩
      have hmem : (p, Y) ∈ m.preds always states terminals nonterminals q :=
        List.mem_filterMap.2 ⟨(p, Y, q), mem_edges hA hS hT hN hedge, by simp⟩
      have hpred := h.2 _ hmem
      rw [Bool.and_eq_true, decide_eq_true_eq] at hpred
      exact ⟨hpred.1, ih hpred.2⟩

theorem checked_of_check (hA : m.AlwaysReduces always) (hS : ∀ q, q ∈ states)
    (hT : ∀ a, a ∈ terminals) (hN : ∀ B, B ∈ nonterminals)
    (h : m.tablesCheck always states terminals nonterminals = true) : m.Checked := by
  rw [tablesCheck, Bool.and_eq_true, List.all_eq_true, List.all_eq_true] at h
  have hact : ∀ q a,
      m.actionCheck always states terminals nonterminals q (m.action q a) = true := by
    intro q a
    have hstate := h.2 q (hS q)
    rw [stateCheck] at hstate
    cases halways : always q with
    | none =>
        rw [halways] at hstate
        exact List.all_eq_true.1 hstate a (hT a)
    | some r =>
        rw [halways] at hstate
        rw [hA q r halways a]
        exact hstate
  refine ⟨fun q a r hr => ?_, fun q a ha => ?_, fun p Y hedge => ?_⟩
  · have hcheck := hact q a
    rw [hr] at hcheck
    exact pops_of_check hA hS hT hN hcheck
  · have hcheck := hact q a
    rw [ha] at hcheck
    have hpops := pops_of_check hA hS hT hN hcheck
    simpa [decide_eq_true_eq] using hpops
  · have hstart := h.1 _ (mem_edges hA hS hT hN hedge)
    simp at hstart

end Pops

section Eager

variable [DecidableEq R]

variable (m always states)

def eagerAtCheck (r : R) (p : S) : Bool :=
  match m.walk p (m.grammar.rhs r) with
  | some q => decide (always q = some r)
  | none => false

def eagerCheck (rules : List R) (D : Sym T N → Bool) : Bool :=
  rules.all fun r =>
    !D (.n (m.grammar.lhs r)) ||
      ((m.grammar.rhs r).all D &&
        states.all fun p => (m.goto p (m.grammar.lhs r)).isNone || m.eagerAtCheck always r p)

variable {m always states}

theorem eagerAt_of_check (hA : m.AlwaysReduces always) {r : R} {p : S}
    (h : m.eagerAtCheck always r p = true) : m.EagerAt r p := by
  rw [eagerAtCheck] at h
  cases hwalk : m.walk p (m.grammar.rhs r) with
  | none =>
      rw [hwalk] at h
      cases h
  | some q =>
      rw [hwalk] at h
      exact ⟨q, hwalk, hA q r (of_decide_eq_true h)⟩

theorem eager_of_check (hA : m.AlwaysReduces always) (hS : ∀ q, q ∈ states) {rules : List R}
    (hR : ∀ r, r ∈ rules) {D : Sym T N → Bool} (h : m.eagerCheck always states rules D = true) :
    m.Eager (fun X => D X = true) := by
  intro r hr
  have hrule := List.all_eq_true.1 h r (hR r)
  rw [hr, Bool.not_true, Bool.false_or, Bool.and_eq_true, List.all_eq_true,
    List.all_eq_true] at hrule
  refine ⟨hrule.1, fun p hgoto => eagerAt_of_check hA ?_⟩
  have hstate := hrule.2 p (hS p)
  rw [Bool.or_eq_true, Option.isNone_iff_eq_none] at hstate
  rcases hstate with hnone | hcheck
  · rw [hnone] at hgoto
    cases hgoto
  · exact hcheck

end Eager

end Check

end ShiftReduce

end Lib
end Secondary
