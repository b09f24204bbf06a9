import Secondary.Lib.Fallible

/-!
# Dialogue — a server that is asked one thing after the other

A server takes events, one at a time, and replies.  Some events are questions of a client; others,
such as a restart, are not seen by the client at all.  A service says what the replies to questions
are: it has states of its own, and takes questions only.  Where every step of the server is one of
the service, or none, the replies of a whole dialogue are those of the service.

A step may need fuel.  `Settles` says that with enough of it the result is there.
-/

namespace Secondary
namespace Lib

universe u v w

variable {ε : Type u} {α β : Type v}

/-! ## Enough fuel -/

/-- With enough fuel, `f` returns `a`. -/
def Settles (f : Nat → Except ε α) (a : α) : Prop :=
  ∃ enough, ∀ n, enough ≤ n → f n = .ok a

theorem settles_of_ok {x : Except ε α} {a : α} (h : x = .ok a) : Settles (fun _ => x) a :=
  ⟨0, fun _ _ => h⟩

theorem Settles.bind {f : Nat → Except ε α} {g : Nat → α → Except ε β} {a : α} {b : β}
    (hf : Settles f a) (hg : Settles (fun n => g n a) b) :
    Settles (fun n => f n >>= g n) b := by
  obtain ⟨N, hN⟩ := hf
  obtain ⟨M, hM⟩ := hg
  refine ⟨max N M, fun n hn => ?_⟩
  show (f n >>= g n) = .ok b
  rw [hN n (Nat.max_le.1 hn).1, ok_bind]
  exact hM n (Nat.max_le.1 hn).2

/-! ## Servers and services -/

section Dialogue

variable {σ : Type v} {γ : Type w} {τ : Type w}

/-- The events one after the other, with all replies. -/
def dialogue (serve : σ → α → Except ε (σ × List β)) : σ → List α → Except ε (σ × List β)
  | s, [] => .ok (s, [])
  | s, a :: as => do
      let r ← serve s a
      let rest ← dialogue serve r.1 as
      .ok (rest.1, r.2 ++ rest.2)

/-- The questions one after the other, with all replies of the service. -/
def answers (answer : τ → γ → τ × List β) : τ → List γ → τ × List β
  | t, [] => (t, [])
  | t, q :: qs =>
      ((answers answer (answer t q).1 qs).1, (answer t q).2 ++ (answers answer (answer t q).1 qs).2)

/-- `P` holds of the state of the service and the question at every question. -/
def Admits (answer : τ → γ → τ × List β) (P : τ → γ → Prop) : τ → List γ → Prop
  | _, [] => True
  | t, q :: qs => P t q ∧ Admits answer P (answer t q).1 qs

/-- An invariant of the service that every question keeps, and that makes every question allowed. -/
theorem admits_of_invariant {answer : τ → γ → τ × List β} {P : τ → γ → Prop} {I : τ → Prop}
    {Q : γ → Prop} (hallowed : ∀ t q, Q q → I t → P t q)
    (hkept : ∀ t q, Q q → I t → I (answer t q).1) (qs : List γ) :
    ∀ t, I t → (∀ q ∈ qs, Q q) → Admits answer P t qs := by
  induction qs with
  | nil =>
      intro t _ _
      trivial
  | cons q qs ih =>
      intro t ht hqs
      have hq := hqs q (by simp)
      exact ⟨hallowed t q hq ht,
        ih _ (hkept t q hq ht) fun q' hq' => hqs q' (List.mem_cons_of_mem _ hq')⟩

/-- A server that goes along with a service, question by question, gives its replies. -/
theorem dialogue_settles {serve : Nat → σ → α → Except ε (σ × List β)}
    {answer : τ → γ → τ × List β} {ask : α → Option γ} {R : σ → τ → Prop} {P : τ → γ → Prop}
    (hasked : ∀ s t a q, ask a = some q → R s t → P t q →
      ∃ s', Settles (fun n => serve n s a) (s', (answer t q).2) ∧ R s' (answer t q).1)
    (hsilent : ∀ s t a, ask a = none → R s t →
      ∃ s', Settles (fun n => serve n s a) (s', []) ∧ R s' t) (as : List α) :
    ∀ (s : σ) (t : τ), R s t → Admits answer P t (as.filterMap ask) →
      ∃ s', Settles (fun n => dialogue (serve n) s as)
          (s', (answers answer t (as.filterMap ask)).2) ∧
        R s' (answers answer t (as.filterMap ask)).1 := by
  induction as with
  | nil =>
      intro s t hst _
      exact ⟨s, settles_of_ok rfl, hst⟩
  | cons a as ih =>
      intro s t hst hadmits
      cases hask : ask a with
      | none =>
          rw [List.filterMap_cons_none hask] at hadmits ⊢
          obtain ⟨s₁, hserve, hst₁⟩ := hsilent s t a hask hst
          obtain ⟨s', hrest, hst'⟩ := ih s₁ t hst₁ hadmits
          exact ⟨s', hserve.bind (hrest.bind (settles_of_ok rfl)), hst'⟩
      | some q =>
          rw [List.filterMap_cons_some hask] at hadmits ⊢
          obtain ⟨s₁, hserve, hst₁⟩ := hasked s t a q hask hst hadmits.1
          obtain ⟨s', hrest, hst'⟩ := ih s₁ (answer t q).1 hst₁ hadmits.2
          exact ⟨s', hserve.bind (hrest.bind (settles_of_ok rfl)), hst'⟩

end Dialogue

end Lib
end Secondary
