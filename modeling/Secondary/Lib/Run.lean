import Secondary.Lib.Fallible

/-!
# Run — sequences of fallible steps

`run step s as` takes the steps `as` one after the other and stops at the first one that fails.
A property of states that every step keeps, and under which no step fails, holds at the end of
every run; where a step keeps it only under a condition, `Every` says that the condition holds at
each step of the run.
-/

namespace Secondary
namespace Lib

universe u v w x

variable {ε : Type u} {σ : Type v} {α : Type w}

def run (step : σ → α → Except ε σ) : σ → List α → Except ε σ
  | s, [] => .ok s
  | s, a :: as => do
      let s ← step s a
      run step s as

/-- `P` holds of the state and the action at every step that the run takes. -/
def Every (step : σ → α → Except ε σ) (P : σ → α → Prop) : σ → List α → Prop
  | _, [] => True
  | s, a :: as => P s a ∧ ∀ s', step s a = .ok s' → Every step P s' as

/-- `Every` is checked along the run. -/
instance decidableEvery (step : σ → α → Except ε σ) (P : σ → α → Prop)
    [∀ s a, Decidable (P s a)] : ∀ (s : σ) (as : List α), Decidable (Every step P s as)
  | _, [] => .isTrue trivial
  | s, a :: as =>
      match h : step s a with
      | .error _ => decidable_of_iff (P s a) (by simp [Every, h])
      | .ok s' =>
          have := decidableEvery step P s' as
          decidable_of_iff (P s a ∧ Every step P s' as) (by simp [Every, h])

variable {step : σ → α → Except ε σ} {P : σ → α → Prop} {Inv : σ → Prop}

@[simp] theorem run_nil (s : σ) : run step s [] = .ok s := rfl

theorem run_cons (s : σ) (a : α) (as : List α) :
    run step s (a :: as) = step s a >>= fun s' => run step s' as := rfl

theorem run_append (s : σ) (as bs : List α) :
    run step s (as ++ bs) = run step s as >>= fun s' => run step s' bs := by
  induction as generalizing s with
  | nil => rfl
  | cons a as ih =>
      cases h : step s a with
      | error e => simp [run_cons, h]
      | ok s' => simp [run_cons, h, ih]

/-- A simulation by an abstract machine that has a step for every action: at the end of a run that
meets `P` the states are still related. -/
theorem run_of_simulation {τ : Type x} (R : σ → τ → Prop) (next : τ → α → τ)
    (hstep : ∀ s t a, R s t → P s a → ∃ s', step s a = .ok s' ∧ R s' (next t a)) :
    ∀ (as : List α) (s : σ) (t : τ), R s t → Every step P s as →
      ∃ s', run step s as = .ok s' ∧ R s' (as.foldl next t) := by
  intro as
  induction as with
  | nil =>
      intro s t hst _
      exact ⟨s, rfl, hst⟩
  | cons a as ih =>
      intro s t hst hevery
      obtain ⟨s₁, hrun, hst₁⟩ := hstep s t a hst hevery.1
      obtain ⟨s', hrest, hst'⟩ := ih s₁ (next t a) hst₁ (hevery.2 s₁ hrun)
      exact ⟨s', by rw [run_cons, hrun, ok_bind, hrest], hst'⟩

/-- An invariant that every step keeps under `P` holds at the end of a run that meets `P`. -/
theorem run_of_invariant (hstep : ∀ s a, Inv s → P s a → ∃ s', step s a = .ok s' ∧ Inv s')
    (as : List α) (s : σ) (hs : Inv s) (hevery : Every step P s as) :
    ∃ s', run step s as = .ok s' ∧ Inv s' :=
  run_of_simulation (fun s (_ : Unit) => Inv s) (fun t _ => t)
    (fun s _ a hinv hp => hstep s a hinv hp) as s () hs hevery

theorem every_of_mem :
    ∀ {as : List α} {s : σ}, (∀ a ∈ as, ∀ s, P s a) → Every step P s as
  | [], _, _ => trivial
  | a :: as, s, h =>
      ⟨h a (by simp) s, fun _ _ => every_of_mem fun b hb => h b (List.mem_cons_of_mem _ hb)⟩

theorem Every.and {Q : σ → α → Prop} :
    ∀ {as : List α} {s : σ}, Every step P s as → Every step Q s as →
      Every step (fun s a => P s a ∧ Q s a) s as
  | [], _, _, _ => trivial
  | _ :: _, _, hp, hq => ⟨⟨hp.1, hq.1⟩, fun s' h => (hp.2 s' h).and (hq.2 s' h)⟩

theorem Every.mono {Q : σ → α → Prop} (h : ∀ s a, P s a → Q s a) :
    ∀ {as : List α} {s : σ}, Every step P s as → Every step Q s as
  | [], _, _ => trivial
  | _ :: _, _, hp => ⟨h _ _ hp.1, fun s' hs' => (hp.2 s' hs').mono h⟩

/-- Where no condition is needed, every run succeeds and keeps the invariant. -/
theorem run_of_total (hstep : ∀ s a, Inv s → ∃ s', step s a = .ok s' ∧ Inv s') (as : List α)
    (s : σ) (hs : Inv s) : ∃ s', run step s as = .ok s' ∧ Inv s' :=
  run_of_invariant (P := fun _ _ => True) (fun s a hinv _ => hstep s a hinv) as s hs
    (every_of_mem fun _ _ _ => trivial)

/-- Where steps may fail, but not with `e`: no run that meets `P` fails with `e`, and the invariant
holds at its end. -/
theorem ends_run {e : ε} (hstep : ∀ s a, Inv s → P s a → Ends (step s a) e Inv) :
    ∀ (as : List α) (s : σ), Inv s → Every step P s as → Ends (run step s as) e Inv
  | [], _, hs, _ => ends_ok hs
  | a :: as, s, hs, hevery =>
      (hstep s a hs hevery.1).bind fun s' hs' hinv =>
        ends_run hstep as s' hinv (hevery.2 s' hs')

end Lib
end Secondary
