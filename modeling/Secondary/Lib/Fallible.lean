import Mathlib.Data.List.Induction
import Mathlib.Tactic.Common

/-!
# Fallible — computations that may fault

A program over pointers is modelled in `Except Fault`: a step that would read memory it may not
read stops the computation with the reason.  This file has the few facts about `Except` that let a
proof run such a computation forward (`ok_bind`) and take it apart (`bind_eq_ok`).
-/

namespace Secondary
namespace Lib

universe u v w

variable {ε : Type u} {α β : Type v}

@[simp] theorem ok_bind (a : α) (f : α → Except ε β) :
    ((Except.ok a : Except ε α) >>= f) = f a := rfl

@[simp] theorem error_bind (e : ε) (f : α → Except ε β) :
    ((Except.error e : Except ε α) >>= f) = Except.error e := rfl

@[simp] theorem pure_eq_ok (a : α) : (pure a : Except ε α) = Except.ok a := rfl

/-- A bind succeeds exactly when both of its parts do. -/
theorem bind_eq_ok {x : Except ε α} {f : α → Except ε β} {b : β} :
    (x >>= f) = Except.ok b ↔ ∃ a, x = Except.ok a ∧ f a = Except.ok b := by
  cases x with
  | error e => simp
  | ok a => simp

/-- Read an optional value, faulting with `e` when there is none. -/
def orFault (o : Option α) (e : ε) : Except ε α :=
  match o with
  | some a => .ok a
  | none => .error e

@[simp] theorem orFault_some (a : α) (e : ε) : orFault (some a) e = Except.ok a := rfl

@[simp] theorem orFault_none (e : ε) : orFault (none : Option α) e = Except.error e := rfl

theorem orFault_eq_ok {o : Option α} {e : ε} {a : α} :
    orFault o e = Except.ok a ↔ o = some a := by
  cases o with
  | none => simp
  | some b => simp

/-! ## Failures that cannot happen -/

/-- `x` does not fail with `e`. -/
def Avoids (x : Except ε α) (e : ε) : Prop :=
  x ≠ Except.error e

section Avoids

variable {e e' : ε}

theorem avoids_ok (a : α) : Avoids (Except.ok a : Except ε α) e := by
  simp [Avoids]

theorem avoids_error (h : e' ≠ e) : Avoids (Except.error e' : Except ε α) e := by
  simpa [Avoids] using h

theorem avoids_orFault {o : Option α} (h : e' ≠ e) : Avoids (orFault o e') e := by
  cases o with
  | none => exact avoids_error h
  | some a => exact avoids_ok a

/-- A sequence avoids what its first part avoids, and its second part after the first. -/
theorem Avoids.bind {x : Except ε α} {f : α → Except ε β} (hx : Avoids x e)
    (hf : ∀ a, x = Except.ok a → Avoids (f a) e) : Avoids (x >>= f) e := by
  cases x with
  | error e' => simpa [Avoids] using hx
  | ok a => exact hf a rfl

/-- What a sequence avoids, its first part avoids. -/
theorem Avoids.of_bind {x : Except ε α} {f : α → Except ε β} (h : Avoids (x >>= f) e) :
    Avoids x e := by
  rintro rfl
  exact h rfl

/-- `x` does not fail with `e`, and what it returns is as `P` says. -/
def Ends (x : Except ε α) (e : ε) (P : α → Prop) : Prop :=
  Avoids x e ∧ ∀ a, x = Except.ok a → P a

theorem Avoids.ends {x : Except ε α} (h : Avoids x e) : Ends x e fun a => x = Except.ok a :=
  ⟨h, fun _ ha => ha⟩

theorem ends_ok {P : α → Prop} {a : α} (h : P a) : Ends (Except.ok a : Except ε α) e P :=
  ⟨avoids_ok a, fun _ ha => Except.ok.inj ha ▸ h⟩

theorem Ends.mono {P Q : α → Prop} {x : Except ε α} (h : Ends x e P)
    (hPQ : ∀ a, x = Except.ok a → P a → Q a) : Ends x e Q :=
  ⟨h.1, fun a ha => hPQ a ha (h.2 a ha)⟩

theorem Ends.bind {P : α → Prop} {Q : β → Prop} {x : Except ε α} {f : α → Except ε β}
    (hx : Ends x e P) (hf : ∀ a, x = Except.ok a → P a → Ends (f a) e Q) : Ends (x >>= f) e Q :=
  ⟨hx.1.bind fun a ha => (hf a ha (hx.2 a ha)).1, fun b hb => by
    obtain ⟨a, ha, hb⟩ := bind_eq_ok.1 hb
    exact (hf a ha (hx.2 a ha)).2 b hb⟩

end Avoids

/-! ## Computations with the same outcome -/

/-- Both computations fault alike, or what they return is related by `R`. -/
def Agrees {γ : Type v} (R : α → γ → Prop) : Except ε α → Except ε γ → Prop
  | .ok a, .ok c => R a c
  | .error e, .error e' => e = e'
  | _, _ => False

section Agrees

variable {γ δ : Type v} {R : α → γ → Prop} {S : β → δ → Prop}

theorem Agrees.bind {x : Except ε α} {y : Except ε γ} {f : α → Except ε β} {g : γ → Except ε δ}
    (h : Agrees R x y) (hfg : ∀ a c, x = .ok a → y = .ok c → R a c → Agrees S (f a) (g c)) :
    Agrees S (x >>= f) (y >>= g) := by
  cases x with
  | error e =>
      cases y with
      | error e' => exact h
      | ok c => exact h.elim
  | ok a =>
      cases y with
      | error e' => exact h.elim
      | ok c => exact hfg a c rfl rfl h

/-- A part that both computations have in common. -/
theorem Agrees.bind_same {x : Except ε α} {f : α → Except ε β} {g : α → Except ε δ}
    (hfg : ∀ a, x = .ok a → Agrees S (f a) (g a)) : Agrees S (x >>= f) (x >>= g) := by
  cases x with
  | error e => exact rfl
  | ok a => exact hfg a rfl

/-- One side goes on with the result of the other. -/
theorem Agrees.continued {x : Except ε α} {g : α → Except ε γ}
    (hg : ∀ a, x = .ok a → Agrees R (.ok a) (g a)) : Agrees R x (x >>= g) := by
  cases x with
  | error e => exact rfl
  | ok a => exact hg a rfl

/-- Where the one returns, the other does. -/
theorem Agrees.returns {x : Except ε α} {y : Except ε γ} {a : α} (h : Agrees R x y)
    (hx : x = .ok a) : ∃ c, y = .ok c ∧ R a c := by
  subst hx
  cases y with
  | error e => exact h.elim
  | ok c => exact ⟨c, rfl, h⟩

end Agrees

/-! ## Loops -/

section Loops

variable {σ : Type v}

/-- A loop that keeps `P` from one pass to the next runs to its end. -/
theorem foldlM_range_ok {f : σ → Nat → Except ε σ} {n : Nat} {s : σ} (P : Nat → σ → Prop)
    (hinit : P 0 s) (hstep : ∀ k < n, ∀ s, P k s → ∃ s', f s k = .ok s' ∧ P (k + 1) s') :
    ∃ s', (List.range n).foldlM f s = .ok s' ∧ P n s' := by
  induction n with
  | zero => exact ⟨s, rfl, hinit⟩
  | succ n ih =>
      obtain ⟨s₁, hrun, hs₁⟩ := ih fun k hk => hstep k (Nat.lt_succ_of_lt hk)
      obtain ⟨s₂, hlast, hs₂⟩ := hstep n (Nat.lt_succ_self n) s₁ hs₁
      refine ⟨s₂, ?_, hs₂⟩
      rw [List.range_succ, List.foldlM_append, hrun, ok_bind, List.foldlM_cons, hlast, ok_bind]
      rfl

/-- A loop that reads the elements of `l` one after the other. -/
theorem mapM_range_ok {f : Nat → Except ε α} (l : List α)
    (h : ∀ i a, l[i]? = some a → f i = .ok a) : (List.range l.length).mapM f = .ok l := by
  induction l using List.reverseRecOn with
  | nil => rfl
  | append_singleton l a ih =>
      have hlast : f l.length = .ok a := h _ _ (by simp)
      have hfront : (List.range l.length).mapM f = .ok l := by
        refine ih fun i b hb => h i b ?_
        rw [List.getElem?_append_left (List.getElem?_eq_some_iff.1 hb).1, hb]
      rw [List.length_append, List.length_singleton, List.range_succ, List.mapM_append, hfront,
        ok_bind, List.mapM_cons, hlast, ok_bind]
      rfl

end Loops

end Lib
end Secondary
