import Mathlib.Data.List.Forall2
import Mathlib.Data.List.Basic

/-!
# Grammar — context-free derivations and the values of their actions

A grammar has rules `lhs ::= rhs` over terminals and nonterminals.  `Derives` says which strings of
terminals a sentential form derives.  When tokens carry values and each rule has an action on
values, `Evaluates` says in addition which values a derivation gives to the symbols of the form.
-/

namespace Secondary
namespace Lib

/-- A symbol of a grammar. -/
inductive Sym (T N : Type) where
  | t (a : T)
  | n (A : N)
  deriving DecidableEq

structure Grammar (T N R : Type) where
  lhs : R → N
  rhs : R → List (Sym T N)

/-- Tokens with their terminals and values, and the actions of the rules. -/
structure Actions (T R K V : Type) where
  kind : K → T
  val : K → V
  sem : R → List V → Option V

variable {T N R K V : Type} {g : Grammar T N R} {A : Actions T R K V}

/-- The form derives the terminals. -/
inductive Derives (g : Grammar T N R) : List (Sym T N) → List T → Prop where
  | nil : Derives g [] []
  | term {a : T} {Xs : List (Sym T N)} {w : List T} :
      Derives g Xs w → Derives g (.t a :: Xs) (a :: w)
  | rule {r : R} {Xs : List (Sym T N)} {u w : List T} :
      Derives g (g.rhs r) u → Derives g Xs w → Derives g (.n (g.lhs r) :: Xs) (u ++ w)

/-- The form derives the tokens, and its symbols get the values. -/
inductive Evaluates (g : Grammar T N R) (A : Actions T R K V) :
    List (Sym T N) → List K → List V → Prop where
  | nil : Evaluates g A [] [] []
  | term {k : K} {Xs : List (Sym T N)} {ks : List K} {vs : List V} :
      Evaluates g A Xs ks vs → Evaluates g A (.t (A.kind k) :: Xs) (k :: ks) (A.val k :: vs)
  | rule {r : R} {Xs : List (Sym T N)} {us ks : List K} {xs vs : List V} {v : V} :
      Evaluates g A (g.rhs r) us xs → A.sem r xs = some v → Evaluates g A Xs ks vs →
        Evaluates g A (.n (g.lhs r) :: Xs) (us ++ ks) (v :: vs)

namespace Evaluates

variable {Xs Ys : List (Sym T N)} {us ks : List K} {xs vs : List V}

theorem derives (h : Evaluates g A Xs ks vs) : Derives g Xs (ks.map A.kind) := by
  induction h with
  | nil => exact .nil
  | term _ ih => exact .term ih
  | rule _ _ _ ihr ih =>
      rw [List.map_append]
      exact .rule ihr ih

theorem length_eq (h : Evaluates g A Xs ks vs) : vs.length = Xs.length := by
  induction h with
  | nil => rfl
  | term _ ih => simp [ih]
  | rule _ _ _ _ ih => simp [ih]

theorem append (h : Evaluates g A Xs us xs) (h' : Evaluates g A Ys ks vs) :
    Evaluates g A (Xs ++ Ys) (us ++ ks) (xs ++ vs) := by
  induction h with
  | nil => exact h'
  | term _ ih => exact .term ih
  | rule hr hsem _ _ ih =>
      rw [List.append_assoc]
      exact .rule hr hsem ih

theorem split (h : Evaluates g A (Xs ++ Ys) ks vs) :
    ∃ us ws xs ys, ks = us ++ ws ∧ vs = xs ++ ys ∧
      Evaluates g A Xs us xs ∧ Evaluates g A Ys ws ys := by
  induction Xs generalizing ks vs with
  | nil => exact ⟨[], ks, [], vs, rfl, rfl, .nil, h⟩
  | cons X Xs ih =>
      cases h with
      | term h =>
          obtain ⟨us, ws, xs, ys, rfl, rfl, hX, hY⟩ := ih h
          exact ⟨_ :: us, ws, _ :: xs, ys, rfl, rfl, .term hX, hY⟩
      | rule hr hsem h =>
          obtain ⟨us, ws, xs, ys, rfl, rfl, hX, hY⟩ := ih h
          exact ⟨_, ws, _ :: xs, ys, (List.append_assoc ..).symm, rfl, .rule hr hsem hX, hY⟩

end Evaluates

/-! ## What derivations say -/

/-- The tokens and the values of a form, symbol by symbol. -/
inductive Symbolwise (P : Sym T N → List K → V → Prop) :
    List (Sym T N) → List K → List V → Prop where
  | nil : Symbolwise P [] [] []
  | cons {X : Sym T N} {Xs : List (Sym T N)} {us ks : List K} {v : V} {vs : List V} :
      P X us v → Symbolwise P Xs ks vs → Symbolwise P (X :: Xs) (us ++ ks) (v :: vs)

section Symbolwise

variable {P : Sym T N → List K → V → Prop} {X : Sym T N} {Xs : List (Sym T N)} {ks : List K}
  {vs : List V}

theorem symbolwise_cons (h : Symbolwise P (X :: Xs) ks vs) :
    ∃ us ws v xs, ks = us ++ ws ∧ vs = v :: xs ∧ P X us v ∧ Symbolwise P Xs ws xs := by
  cases h with
  | cons hX hXs => exact ⟨_, _, _, _, rfl, rfl, hX, hXs⟩

theorem symbolwise_one (h : Symbolwise P [X] ks vs) : ∃ v, vs = [v] ∧ P X ks v := by
  obtain ⟨us, ws, v, xs, rfl, rfl, hX, hnil⟩ := symbolwise_cons h
  cases hnil
  rw [List.append_nil]
  exact ⟨v, rfl, hX⟩

theorem Symbolwise.forall₂ {Q : Sym T N → V → Prop} (h : Symbolwise P Xs ks vs)
    (hPQ : ∀ X us v, P X us v → Q X v) : List.Forall₂ Q Xs vs := by
  induction h with
  | nil => exact .nil
  | cons hX _ ih => exact .cons (hPQ _ _ _ hX) ih

/-- What every token says, and every rule of what its right side says, the derivations say. -/
theorem Evaluates.symbolwise {Q : K → Prop} (hterm : ∀ k, Q k → P (.t (A.kind k)) [k] (A.val k))
    (hrule : ∀ r us xs v, Symbolwise P (g.rhs r) us xs → A.sem r xs = some v → P (.n (g.lhs r)) us v)
    (h : Evaluates g A Xs ks vs) (hks : ∀ k ∈ ks, Q k) : Symbolwise P Xs ks vs := by
  induction h with
  | nil => exact .nil
  | @term k _ _ _ _ ih =>
      rw [List.forall_mem_cons] at hks
      exact .cons (hterm k hks.1) (ih hks.2)
  | @rule r _ us _ _ _ _ _ hsem _ ihr ih =>
      rw [List.forall_mem_append] at hks
      exact .cons (hrule r us _ _ (ihr hks.1) hsem) (ih hks.2)

end Symbolwise

/-! ## Typed actions -/

/-- On values of the types of its right side the value of an action has the type of its left side. -/
def TypedActions (g : Grammar T N R) (A : Actions T R K V) (Typed : Sym T N → V → Prop) : Prop :=
  ∀ r xs v, List.Forall₂ Typed (g.rhs r) xs → A.sem r xs = some v → Typed (.n (g.lhs r)) v

/-- On values of the types of its right side the action of a rule has a value. -/
def TotalActions (g : Grammar T N R) (A : Actions T R K V) (Typed : Sym T N → V → Prop) : Prop :=
  ∀ r xs, List.Forall₂ Typed (g.rhs r) xs → ∃ v, A.sem r xs = some v

section Typed

variable {Typed : Sym T N → V → Prop} {Xs : List (Sym T N)} {ks : List K} {vs : List V}

theorem Evaluates.typed (hA : TypedActions g A Typed) (h : Evaluates g A Xs ks vs)
    (hks : ∀ k ∈ ks, Typed (.t (A.kind k)) (A.val k)) : List.Forall₂ Typed Xs vs := by
  induction h with
  | nil => exact .nil
  | term _ ih =>
      rw [List.forall_mem_cons] at hks
      exact .cons hks.1 (ih hks.2)
  | rule hr hsem _ ihr ih =>
      rw [List.forall_mem_append] at hks
      exact .cons (hA _ _ _ (ihr hks.1) hsem) (ih hks.2)

/-- With typed and total actions every derivation has values. -/
theorem Derives.evaluates (hA : TypedActions g A Typed) (htotal : TotalActions g A Typed)
    {w : List T} (h : Derives g Xs w) :
    ∀ {ks : List K}, ks.map A.kind = w → (∀ k ∈ ks, Typed (.t (A.kind k)) (A.val k)) →
      ∃ vs, Evaluates g A Xs ks vs := by
  induction h with
  | nil =>
      intro ks hks _
      obtain rfl := List.map_eq_nil_iff.1 hks
      exact ⟨[], .nil⟩
  | term _ ih =>
      intro ks hks htyped
      obtain ⟨k, ks, rfl, rfl, hmap⟩ := List.map_eq_cons_iff.1 hks
      obtain ⟨vs, hvs⟩ := ih hmap fun k hk => htyped k (List.mem_cons_of_mem _ hk)
      exact ⟨_, .term hvs⟩
  | rule _ _ ihr ih =>
      intro ks hks htyped
      obtain ⟨us, ws, rfl, hus, hws⟩ := List.map_eq_append_iff.1 hks
      rw [List.forall_mem_append] at htyped
      obtain ⟨xs, hxs⟩ := ihr hus htyped.1
      obtain ⟨vs, hvs⟩ := ih hws htyped.2
      obtain ⟨v, hv⟩ := htotal _ _ (hxs.typed hA htyped.1)
      exact ⟨_, .rule hxs hv hvs⟩

end Typed

/-! ## Values of a right side -/

section RightSide

variable {α β : Type} {P : α → β → Prop} {a b c d e f : α} {xs : List β}

theorem forall₂_one (h : List.Forall₂ P [a] xs) : ∃ x, xs = [x] ∧ P a x := by
  rcases h with _ | ⟨ha, ⟨⟩⟩
  exact ⟨_, rfl, ha⟩

theorem forall₂_three (h : List.Forall₂ P [a, b, c] xs) :
    ∃ x y z, xs = [x, y, z] ∧ P a x ∧ P b y ∧ P c z := by
  rcases h with _ | ⟨ha, _ | ⟨hb, _ | ⟨hc, ⟨⟩⟩⟩⟩
  exact ⟨_, _, _, rfl, ha, hb, hc⟩

theorem forall₂_four (h : List.Forall₂ P [a, b, c, d] xs) :
    ∃ x y z w, xs = [x, y, z, w] ∧ P c z := by
  rcases h with _ | ⟨ha, _ | ⟨hb, _ | ⟨hc, _ | ⟨hd, ⟨⟩⟩⟩⟩⟩
  exact ⟨_, _, _, _, rfl, hc⟩

theorem forall₂_six (h : List.Forall₂ P [a, b, c, d, e, f] xs) :
    ∃ x y z w u v, xs = [x, y, z, w, u, v] ∧ P c z ∧ P e u := by
  rcases h with _ | ⟨ha, _ | ⟨hb, _ | ⟨hc, _ | ⟨hd, _ | ⟨he, _ | ⟨hf, ⟨⟩⟩⟩⟩⟩⟩⟩
  exact ⟨_, _, _, _, _, _, rfl, hc, he⟩

end RightSide

end Lib
end Secondary
