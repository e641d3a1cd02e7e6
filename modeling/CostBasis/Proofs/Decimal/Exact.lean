import CostBasis.Proofs.Decimal.Number

/-!
# Exact operations

An operation on decimals is exact if it has a result and the result is not rounded.  A calculation
is described as exact operation by operation, in the order in which they are made: each of the
predicates below says that its operation is exact, and hands the result to what is said of the rest
of the calculation.
-/

namespace CostBasis

/-- A calculation has a result, and `P` holds of it. -/
def Yields {α : Type} (x : Except Fault α) (P : α → Prop) : Prop := ∃ a, x = .ok a ∧ P a

instance {α : Type} (x : Except Fault α) (P : α → Prop) [DecidablePred P] :
    Decidable (Yields x P) :=
  match x with
  | .ok a => decidable_of_iff (P a) (by simp [Yields])
  | .error _ => isFalse (by simp [Yields])

/-- What is said of a result is said of what the rest of the calculation goes on with. -/
theorem Yields.of_bind_eq_ok {α β : Type} {x : Except Fault α} {P : α → Prop}
    {f : α → Except Fault β} {b : β} (h : Yields x P) (hbind : x >>= f = .ok b) :
    ∃ a, P a ∧ f a = .ok b := by
  obtain ⟨a, rfl, hP⟩ := h
  exact ⟨a, hP, hbind⟩

namespace Decimal

/-- The sum of `a` and `b` is not rounded, and `P` holds of it. -/
def ExactSum (a b : Decimal) (P : Decimal → Prop) : Prop :=
  Yields (a.add b) fun d => d.toRat = a.toRat + b.toRat ∧ P d

/-- The difference of `a` and `b` is not rounded, and `P` holds of it. -/
def ExactDifference (a b : Decimal) (P : Decimal → Prop) : Prop :=
  Yields (a.sub b) fun d => d.toRat = a.toRat - b.toRat ∧ P d

/-- The product of `a` and `b` is not rounded, and `P` holds of it. -/
def ExactProduct (a b : Decimal) (P : Decimal → Prop) : Prop :=
  Yields (a.mul b) fun d => d.toRat = a.toRat * b.toRat ∧ P d

/-- A sum that is found without rounding is the sum in numbers.  So a calculation that is known to
be exact may be followed in rational arithmetic. -/
theorem ExactSum.toRat_eq {a b d : Decimal} {P : Decimal → Prop} (h : ExactSum a b P)
    (hadd : a.add b = .ok d) : d.toRat = a.toRat + b.toRat := by
  obtain ⟨d', hadd', hvalue, -⟩ := h
  obtain rfl := Except.ok.inj (hadd.symm.trans hadd')
  exact hvalue

section decidable

variable (a b : Decimal) (P : Decimal → Prop) [DecidablePred P]

instance : Decidable (ExactSum a b P) :=
  inferInstanceAs (Decidable (Yields (a.add b) fun d => d.toRat = a.toRat + b.toRat ∧ P d))

instance : Decidable (ExactDifference a b P) :=
  inferInstanceAs (Decidable (Yields (a.sub b) fun d => d.toRat = a.toRat - b.toRat ∧ P d))

instance : Decidable (ExactProduct a b P) :=
  inferInstanceAs (Decidable (Yields (a.mul b) fun d => d.toRat = a.toRat * b.toRat ∧ P d))

end decidable

end Decimal

end CostBasis
