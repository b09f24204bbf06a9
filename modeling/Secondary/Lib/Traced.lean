import Secondary.Lib.Fallible

/-!
# Traced — fallible computations, with what was seen of them

A `Traced` computation emits events until it returns or faults, and what it emitted before a fault
is seen all the same.  `forget` leaves the events out.  `Emits t n` says that `t` emits `n` events
that count when it returns, and none when it faults: a request that is answered once, in the end.
-/

namespace Secondary
namespace Lib

structure Traced (ε E α : Type) where
  log : List E
  out : Except ε α

namespace Traced

variable {ε ε' E α β : Type}

def bind (x : Traced ε E α) (f : α → Traced ε E β) : Traced ε E β :=
  match x.out with
  | .error e => { log := x.log, out := .error e }
  | .ok a => { log := x.log ++ (f a).log, out := (f a).out }

instance : Monad (Traced ε E) where
  pure a := { log := [], out := .ok a }
  bind := bind

/-- One event. -/
def emit (e : E) : Traced ε E Unit where
  log := [e]
  out := .ok ()

/-- A computation that emits nothing. -/
def lift (x : Except ε α) : Traced ε E α where
  log := []
  out := x

/-- The result alone, with other names for the faults. -/
def forget (g : ε → ε') (x : Traced ε E α) : Except ε' α :=
  x.out.mapError g

section Run

@[simp] theorem log_pure (a : α) : (pure a : Traced ε E α).log = [] := rfl

@[simp] theorem out_pure (a : α) : (pure a : Traced ε E α).out = .ok a := rfl

@[simp] theorem log_emit (e : E) : (emit e : Traced ε E Unit).log = [e] := rfl

@[simp] theorem out_emit (e : E) : (emit e : Traced ε E Unit).out = .ok () := rfl

@[simp] theorem log_lift (x : Except ε α) : (lift x : Traced ε E α).log = [] := rfl

@[simp] theorem out_lift (x : Except ε α) : (lift x : Traced ε E α).out = x := rfl

theorem bind_ok {x : Traced ε E α} {a : α} (h : x.out = .ok a) (f : α → Traced ε E β) :
    x >>= f = { log := x.log ++ (f a).log, out := (f a).out } := by
  show x.bind f = _
  simp [bind, h]

theorem bind_error {x : Traced ε E α} {e : ε} (h : x.out = .error e) (f : α → Traced ε E β) :
    x >>= f = { log := x.log, out := .error e } := by
  show x.bind f = _
  simp [bind, h]

@[simp] theorem pure_bind (a : α) (f : α → Traced ε E β) : pure a >>= f = f a := rfl

@[simp] theorem emit_bind (e : E) (f : Unit → Traced ε E β) :
    emit e >>= f = { log := e :: (f ()).log, out := (f ()).out } := rfl

@[simp] theorem lift_ok_bind (a : α) (f : α → Traced ε E β) :
    (lift (.ok a) : Traced ε E α) >>= f = f a := rfl

@[simp] theorem lift_error_bind (e : ε) (f : α → Traced ε E β) :
    (lift (.error e) : Traced ε E α) >>= f = { log := [], out := .error e } := rfl

end Run

protected theorem bind_assoc {γ : Type} (x : Traced ε E α) (f : α → Traced ε E β) (g : β → Traced ε E γ) :
    x >>= f >>= g = x >>= fun a => f a >>= g := by
  cases hx : x.out with
  | error e => rw [bind_error hx, bind_error hx, bind_error rfl]
  | ok a =>
      rw [bind_ok hx, bind_ok hx]
      cases hf : (f a).out with
      | error e => rw [bind_error rfl, bind_error hf]
      | ok b => rw [bind_ok rfl, bind_ok hf, List.append_assoc]

/-! ## Forgetting the events -/

section Forget

variable (g : ε → ε')

@[simp] theorem forget_pure (a : α) : forget g (pure a : Traced ε E α) = .ok a := rfl

@[simp] theorem forget_lift (x : Except ε α) :
    forget g (lift x : Traced ε E α) = x.mapError g := rfl

@[simp] theorem forget_emit (e : E) : forget g (emit e : Traced ε E Unit) = .ok () := rfl

theorem forget_bind (x : Traced ε E α) (f : α → Traced ε E β) :
    forget g (x >>= f) = forget g x >>= fun a => forget g (f a) := by
  cases h : x.out with
  | error e =>
      rw [bind_error h]
      simp [forget, h, Except.mapError]
  | ok a =>
      rw [bind_ok h]
      simp [forget, h, Except.mapError]

end Forget

/-! ## Answering once -/

section Emits

variable {p : E → Bool}

/-- The events that count are `n` when the computation returns, and none when it faults. -/
def Emits (p : E → Bool) (t : Traced ε E α) (n : Nat) : Prop :=
  t.log.countP p = match t.out with
    | .ok _ => n
    | .error _ => 0

theorem emits_pure (a : α) : Emits p (pure a : Traced ε E α) 0 := rfl

theorem emits_lift (x : Except ε α) : Emits p (lift x : Traced ε E α) 0 := by
  cases x <;> rfl

theorem emits_fault (e : ε) (n : Nat) : Emits p (lift (.error e) : Traced ε E α) n := rfl

theorem emits_emit {e : E} (h : p e = false) : Emits p (emit e : Traced ε E Unit) 0 := by
  simp [Emits, h]

theorem emits_emit_pure {e : E} (h : p e = true) (a : α) :
    Emits p (emit e >>= fun _ => (pure a : Traced ε E α)) 1 := by
  simp [Emits, h]

/-- A first part that does not answer leaves the answering to the second. -/
theorem Emits.bind {x : Traced ε E α} {f : α → Traced ε E β} {n : Nat} (hx : Emits p x 0)
    (hf : ∀ a, x.out = .ok a → Emits p (f a) n) : Emits p (x >>= f) n := by
  cases h : x.out with
  | error e =>
      rw [bind_error h]
      simpa [Emits, h] using hx
  | ok a =>
      have hfirst : x.log.countP p = 0 := by simpa [Emits, h] using hx
      rw [bind_ok h]
      simpa [Emits, hfirst] using hf a h

/-- Who has answered before a computation that answers once does not answer once. -/
theorem not_emits_of_answered {e : E} (he : p e = true) {t : Traced ε E α} (ht : Emits p t 1) :
    ¬Emits p (Traced.emit e >>= fun _ => t) 1 := by
  intro h
  cases hout : t.out with
  | error e' => simp [Emits, he, hout] at h
  | ok a =>
      have hrest : t.log.countP p = 1 := by simpa [Emits, hout] using ht
      simp [Emits, he, hout, hrest] at h

end Emits

/-! ## Faults and events that cannot happen -/

section Rules

/-- The fault `e` does not happen. -/
def Escapes (t : Traced ε E α) (e : ε) : Prop :=
  Avoids t.out e

theorem escapes_emit (a : E) (e : ε) : Escapes (emit a : Traced ε E Unit) e := avoids_ok ()

theorem escapes_pure (a : α) (e : ε) : Escapes (pure a : Traced ε E α) e := avoids_ok a

theorem Escapes.bind {x : Traced ε E α} {f : α → Traced ε E β} {e : ε} (hx : Escapes x e)
    (hf : ∀ a, x.out = .ok a → Escapes (f a) e) : Escapes (x >>= f) e := by
  cases h : x.out with
  | error e' =>
      rw [bind_error h]
      simpa [Escapes, Avoids, h] using hx
  | ok a =>
      rw [bind_ok h]
      exact hf a h

/-- Every event is as `P` says. -/
def Logs (t : Traced ε E α) (P : E → Prop) : Prop :=
  ∀ a ∈ t.log, P a

theorem logs_lift (x : Except ε α) (P : E → Prop) : Logs (lift x : Traced ε E α) P := by
  simp [Logs]

theorem Logs.bind {x : Traced ε E α} {f : α → Traced ε E β} {P : E → Prop} (hx : Logs x P)
    (hf : ∀ a, x.out = .ok a → Logs (f a) P) : Logs (x >>= f) P := by
  cases h : x.out with
  | error e' =>
      rw [bind_error h]
      exact hx
  | ok a =>
      rw [bind_ok h]
      intro b hb
      rcases List.mem_append.1 hb with hb | hb
      · exact hx b hb
      · exact hf a h b hb

/-- What a first part emits stays. -/
theorem mem_log_bind {x : Traced ε E α} {a : E} (h : a ∈ x.log) (f : α → Traced ε E β) :
    a ∈ (x >>= f).log := by
  cases hout : x.out with
  | error e => simpa only [bind_error hout] using h
  | ok b => simpa only [bind_ok hout] using List.mem_append_left _ h

theorem mem_log_bind_right {x : Traced ε E α} {b : α} (hx : x.out = .ok b)
    {f : α → Traced ε E β} {a : E} (h : a ∈ (f b).log) : a ∈ (x >>= f).log := by
  rw [bind_ok hx]
  exact List.mem_append_right _ h

theorem mem_log_emit_bind (a : E) (f : Unit → Traced ε E β) : a ∈ (emit a >>= f).log := by
  simp

end Rules

end Traced

end Lib
end Secondary
