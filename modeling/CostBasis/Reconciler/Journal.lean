import CostBasis.Reconciler.Event

/-!
# Journals

A calculation that announces events on its way.  A fault ends the calculation, but what has been
announced before stays announced.
-/

namespace CostBasis

/-- The events of a calculation, and its result.
Source: the calls of `emit` of `EventRegistry` in the course of a function. -/
structure Journal (α : Type) where
  /-- What was announced, in order. -/
  events : List Event
  /-- The result, or the fault that ended the calculation. -/
  result : Except Fault α

namespace Journal

variable {α β : Type}

/-- A result without events. -/
def ofResult (result : Except Fault α) : Journal α := ⟨[], result⟩

/-- One event. -/
def announce (e : Event) : Journal Unit := ⟨[e], .ok ()⟩

/-- One calculation after another. -/
def andThen (x : Journal α) (f : α → Journal β) : Journal β :=
  match x.result with
  | .error fault => ⟨x.events, .error fault⟩
  | .ok a =>
    let y := f a
    ⟨x.events ++ y.events, y.result⟩

instance : Monad Journal where
  pure a := ofResult (.ok a)
  bind := andThen

instance : MonadLift (Except Fault) Journal := ⟨ofResult⟩

@[simp] theorem pure_eq (a : α) : (pure a : Journal α) = ⟨[], .ok a⟩ := rfl

theorem bind_of_ok {x : Journal α} {a : α} (h : x.result = .ok a) (f : α → Journal β) :
    x >>= f = ⟨x.events ++ (f a).events, (f a).result⟩ := by
  show andThen x f = _
  simp [andThen, h]

theorem bind_of_error {x : Journal α} {fault : Fault} (h : x.result = .error fault)
    (f : α → Journal β) : x >>= f = ⟨x.events, .error fault⟩ := by
  show andThen x f = _
  simp [andThen, h]

instance : LawfulMonad Journal :=
  LawfulMonad.mk' Journal
    (fun x => by
      obtain ⟨events, result⟩ := x
      show andThen _ _ = _
      cases result <;> simp [andThen, ofResult])
    (fun a f => by rw [pure_eq, bind_of_ok rfl, List.nil_append])
    (fun x f g => by
      obtain ⟨events, result⟩ := x
      show andThen (andThen _ f) g = andThen _ fun a => andThen (f a) g
      cases result with
      | error fault => rfl
      | ok a => cases h : (f a).result <;> simp [andThen, h])

/-- A result by itself announces nothing. -/
theorem pure_eq_ok {a b : α} {es : List Event} (h : (pure a : Journal α) = ⟨es, .ok b⟩) :
    es = [] ∧ a = b := by
  obtain ⟨rfl, hb⟩ := mk.inj h
  exact ⟨rfl, Except.ok.inj hb⟩

/-- A calculation that consists of two has a result if both have, and announces what both do. -/
theorem bind_eq_ok {x : Journal α} {f : α → Journal β} {es : List Event} {b : β} :
    x >>= f = ⟨es, .ok b⟩ ↔
      ∃ first a rest, x = ⟨first, .ok a⟩ ∧ f a = ⟨rest, .ok b⟩ ∧ es = first ++ rest := by
  obtain ⟨first, result⟩ := x
  cases result with
  | error fault =>
      rw [bind_of_error rfl]
      simp
  | ok a =>
      rw [bind_of_ok rfl, mk.injEq]
      constructor
      · rintro ⟨rfl, h⟩
        exact ⟨first, a, (f a).events, rfl, by rw [← h], rfl⟩
      · rintro ⟨_, _, rest, hx, hf, rfl⟩
        obtain ⟨rfl, h⟩ := mk.inj hx
        obtain rfl := Except.ok.inj h
        rw [hf]
        exact ⟨rfl, rfl⟩

/-- A function of the result announces nothing more. -/
theorem map_eq_ok {x : Journal α} {g : α → β} {es : List Event} {b : β}
    (h : (x >>= fun a => pure (g a)) = ⟨es, .ok b⟩) : ∃ a, x = ⟨es, .ok a⟩ ∧ g a = b := by
  obtain ⟨first, a, rest, hx, hreturn, rfl⟩ := bind_eq_ok.mp h
  obtain ⟨rfl, hb⟩ := pure_eq_ok hreturn
  rw [List.append_nil]
  exact ⟨a, hx, hb⟩

end Journal

end CostBasis
