import CostBasis.Decimal.Text
import CostBasis.Proofs.Decimal.Fit

/-!
# Trailing zeros in a calculation

Two decimals with the same number may differ in their trailing zeros, and these decide how many
places a result may have.  But they never decide which number the result is: it is the one that
would be found with all the places there are, since a number that has no more places than are asked
for is not changed by asking for more.  So an operation that is given other decimals with the same
numbers meets the same fault, or has a result with the same number.

`Agree` is how this is said of a whole calculation, and it is put together from the parts of the
calculation by `Agree.bind`.

Main statements: `map_toRat_fit`, `reduce_eq_iff`, and one lemma for each operation.
-/

namespace CostBasis

/-! ## Calculations that agree -/

/-- Two calculations meet the same fault, or they have results that `R` relates. -/
inductive Agree {ε α β : Type} (R : α → β → Prop) : Except ε α → Except ε β → Prop
  | ok {a : α} {b : β} (related : R a b) : Agree R (.ok a) (.ok b)
  | error (fault : ε) : Agree R (.error fault) (.error fault)

/-- Two pairs are related part by part. -/
def Both {α β γ δ : Type} (R : α → β → Prop) (S : γ → δ → Prop) (x : α × γ) (y : β × δ) : Prop :=
  R x.1 y.1 ∧ S x.2 y.2

namespace Agree

variable {ε α β γ δ : Type} {R : α → β → Prop} {S : γ → δ → Prop} {x : Except ε α} {y : Except ε β}

/-- Calculations that agree, and go on in the same way, agree.  This is how every calculation below
is put together. -/
theorem bind {f : α → Except ε γ} {g : β → Except ε δ} (h : Agree R x y)
    (hf : ∀ a b, R a b → Agree S (f a) (g b)) : Agree S (x >>= f) (y >>= g) := by
  cases h with
  | ok related => exact hf _ _ related
  | error fault => exact .error fault

/-- Two calculations that take the same way out of two, and then go on. -/
theorem ite_bind {x' : Except ε α} {y' : Except ε β} {f : α → Except ε γ} {g : β → Except ε δ}
    {p : Prop} [Decidable p] (h : Agree R x y) (h' : Agree R x' y')
    (hf : ∀ a b, R a b → Agree S (f a) (g b)) :
    Agree S (if p then x >>= f else x' >>= f) (if p then y >>= g else y' >>= g) := by
  split
  · exact h.bind hf
  · exact h'.bind hf

/-- Calculations that agree do so under functions that keep the relation. -/
theorem map {f : α → γ} {g : β → δ} (h : Agree R x y) (hf : ∀ a b, R a b → S (f a) (g b)) :
    Agree S (x.map f) (y.map g) := by
  cases h with
  | ok related => exact .ok (hf _ _ related)
  | error fault => exact .error fault

/-- What is known of the first result may be used of it. -/
theorem and_left {P : α → Prop} (h : Agree R x y) (hP : ∀ a, x = .ok a → P a) :
    Agree (fun a b => P a ∧ R a b) x y := by
  cases h with
  | ok related => exact .ok ⟨hP _ rfl, related⟩
  | error fault => exact .error fault

end Agree

namespace Decimal

variable {a b c d : Decimal} {q : ℚ} {m n : ℕ}

/-- The same number, perhaps with other trailing zeros. -/
def Same (a b : Decimal) : Prop := a.toRat = b.toRat

instance (a b : Decimal) : Decidable (Same a b) := inferInstanceAs (Decidable (a.toRat = b.toRat))

namespace Same

/-- A decimal is the same number as itself. -/
@[refl] theorem refl (a : Decimal) : Same a a := rfl

/-- To be the same number goes both ways. -/
theorem symm (h : Same a b) : Same b a := Eq.symm h

/-- Decimals that are the same number as a third one are the same number. -/
theorem trans (h : Same a b) (h' : Same b c) : Same a c := Eq.trans h h'

/-! ## Signs -/

/-- Whether a decimal is zero is asked of its number. -/
theorem isZero (h : Same a b) : a.isZero = b.isZero := by
  rw [Bool.eq_iff_iff, isZero_iff, isZero_iff, h]

/-- Whether a decimal is above zero is asked of its number. -/
theorem isPositive (h : Same a b) : a.isPositive = b.isPositive := by
  rw [Bool.eq_iff_iff, isPositive_iff, isPositive_iff, h]

/-- Whether a decimal is below zero is asked of its number. -/
theorem isNegative (h : Same a b) : a.isNegative = b.isNegative := by
  rw [Bool.eq_iff_iff, isNegative_iff, isNegative_iff, h]

/-- Whether two decimals are equal is asked of their numbers. -/
theorem isEqual (h : Same a b) (h' : Same c d) : a.isEqual c = b.isEqual d := by
  rw [Bool.eq_iff_iff, isEqual_iff, isEqual_iff, h, h']

/-- The same number with its sign changed is the same number. -/
theorem neg (h : Same a b) : Same (-a) (-b) := by
  rw [Same, toRat_neg, toRat_neg, h]

/-- The same number without its sign is the same number. -/
theorem abs (h : Same a b) : Same a.abs b.abs := by
  rw [Same, toRat_abs, toRat_abs, h]

/-- The smaller of two numbers is the same number, even where it is another one of the two
decimals. -/
theorem min (h : Same a b) (h' : Same c d) : Same (min a c) (min b d) := by
  rw [Same, toRat_min, toRat_min, h, h']

end Same

/-! ## Rounding -/

/-- More places make no difference to a number that lies on the coarser grid already.  They may be
in the result, as zeros at its end. -/
theorem map_toRat_fit_of_le (hle : m ≤ n) (hgrid : OnGrid m q) :
    (fit q m).map toRat = (fit q n).map toRat := by
  induction n, hle using Nat.le_induction with
  | base => rfl
  | succ n hle ih =>
      rw [fit]
      cases hround : roundAt? q (n + 1) with
      | none => exact ih
      | some d =>
          have hd : d.toRat = q := toRat_eq_of_onGrid hround (hgrid.mono (hle.trans n.le_succ))
          obtain ⟨c, hfit, hc⟩ := Representable.exists_fit ⟨d, hd⟩ hgrid
          rw [hfit, Option.map_some, Option.map_some, hc, hd]

/-- There are no places behind the last one, so to ask for more of them changes nothing. -/
theorem fit_eq_of_maxScale_le (hle : maxScale ≤ n) : fit q n = fit q maxScale := by
  induction n, hle using Nat.le_induction with
  | base => rfl
  | succ n hle ih =>
      have hnone : roundAt? q (n + 1) = none := by
        rw [roundAt?, ofParts?, dif_neg (by omega)]
      rw [fit, hnone]
      exact ih

/-- **The result on a grid that the number lies on**, if there is one, is what it would be with all
the places there are. -/
theorem map_toRat_fit (hgrid : OnGrid n q) :
    (fit q n).map toRat = (fit q maxScale).map toRat := by
  rcases le_total maxScale n with hle | hle
  · rw [fit_eq_of_maxScale_le hle]
  · exact map_toRat_fit_of_le hle hgrid

/-- Results with the same number, if there are any. -/
theorem rel_same_iff {x y : Option Decimal} : Option.Rel Same x y ↔ x.map toRat = y.map toRat := by
  cases x <;> cases y <;> simp [Same]

/-- A result that is the same number, or the same fault. -/
theorem orFault_same {x y : Option Decimal} (h : Option.Rel Same x y) (fault : Fault) :
    Agree Same (orFault x fault) (orFault y fault) := by
  cases h with
  | some h => exact .ok h
  | none => exact .error fault

/-- Rounding to some places comes to the same number, also where one of the two has these places
already and the other one does not. -/
theorem Same.roundTo (h : Same a b) (places : ℕ) : Same (a.roundTo places) (b.roundTo places) := by
  -- What lies on the grid already is the same number when it is rounded to it.
  have hround {d : Decimal} (hgrid : OnGrid places d.toRat) :
      (d.roundTo places).toRat = d.toRat := by
    unfold Decimal.roundTo
    split
    · rfl
    · cases hround : roundAt? d.toRat places with
      | none => rfl
      | some r => exact toRat_eq_of_onGrid hround hgrid
  by_cases hgrid : OnGrid places a.toRat
  · rw [Same, hround hgrid, hround (h ▸ hgrid), h]
  · have hscale {d : Decimal} (hd : ¬OnGrid places d.toRat) : ¬d.scale ≤ places :=
      fun hle => hd (d.onGrid_toRat.mono hle)
    rw [Decimal.roundTo, Decimal.roundTo, if_neg (hscale hgrid), if_neg (hscale (h ▸ hgrid)), ← h]
    cases roundAt? a.toRat places with
    | none => exact h
    | some r => rfl

/-! ## Operations -/

/-- The sum is the same number, or overflows in the same way.  It has no more places than the
summands, and is asked for with as many as the larger of the two has. -/
theorem add_same (h : Same a b) (h' : Same c d) : Agree Same (a.add c) (b.add d) := by
  refine orFault_same (rel_same_iff.mpr ?_) _
  have hgrid (a b : Decimal) : OnGrid (max a.scale b.scale) (a.toRat + b.toRat) :=
    (a.onGrid_toRat.mono (le_max_left ..)).add (b.onGrid_toRat.mono (le_max_right ..))
  rw [map_toRat_fit (hgrid a c), map_toRat_fit (hgrid b d), h, h']

/-- The difference is the same number, or overflows in the same way. -/
theorem sub_same (h : Same a b) (h' : Same c d) : Agree Same (a.sub c) (b.sub d) := by
  refine orFault_same (rel_same_iff.mpr ?_) _
  have hgrid (a b : Decimal) : OnGrid (max a.scale b.scale) (a.toRat - b.toRat) :=
    (a.onGrid_toRat.mono (le_max_left ..)).sub (b.onGrid_toRat.mono (le_max_right ..))
  rw [map_toRat_fit (hgrid a c), map_toRat_fit (hgrid b d), h, h']

/-- The product is the same number, or overflows in the same way. -/
theorem mul_same (h : Same a b) (h' : Same c d) : Agree Same (a.mul c) (b.mul d) := by
  refine orFault_same (rel_same_iff.mpr ?_) _
  rw [map_toRat_fit (a.onGrid_toRat.mul c.onGrid_toRat),
    map_toRat_fit (b.onGrid_toRat.mul d.onGrid_toRat), h, h']

/-- A quotient is, as a number, the rounded quotient of the numbers.  Where one coefficient divides
the other the quotient is exact, so that it does not matter for how many places it is asked. -/
theorem map_toRat_div? (a b : Decimal) : (a.div? b).map toRat =
    if b.isZero then none else (fit (a.toRat / b.toRat) maxScale).map toRat := by
  unfold div?
  split_ifs with hzero hdvd
  · rfl
  · exact map_toRat_fit (onGrid_div_of_dvd hdvd)
  · rw [Option.map_map]
    congr 1
    exact funext toRat_reduce

/-- The quotient is the same number, or there is none. -/
theorem div?_same (h : Same a b) (h' : Same c d) : Option.Rel Same (a.div? c) (b.div? d) := by
  rw [rel_same_iff, map_toRat_div?, map_toRat_div?, h'.isZero, h, h']

/-- The quotient is the same number, or meets the same fault. -/
theorem div_same (h : Same a b) (h' : Same c d) : Agree Same (a.div c) (b.div d) := by
  unfold div
  rw [h'.isZero]
  split
  · exact .error _
  · exact orFault_same (div?_same h h') _

/-! ## One decimal for each number -/

/-- A reduced decimal has as few places as any with the same number: with more it would end in a
zero. -/
theorem Same.scale_le (h : Same a b) (hb : b.scale = 0 ∨ b.coeff % 10 ≠ 0) : b.scale ≤ a.scale := by
  by_contra! hlt
  obtain ⟨k, hk⟩ := Nat.exists_eq_add_of_lt hlt
  have hcoeff : (b.coeff : ℚ) = a.coeff * 10 ^ k * 10 := by
    rw [Same, toRat_eq_div, toRat_eq_div, div_eq_div_iff (pow_scale_pos a).ne'
      (pow_scale_pos b).ne', hk, pow_succ, pow_add] at h
    refine mul_left_cancel₀ (pow_scale_pos a).ne' ?_
    linear_combination -h
  have hcoeff : b.coeff = a.coeff * 10 ^ k * 10 := by exact_mod_cast hcoeff
  rcases hb with hb | hb <;> omega

/-- Two reduced decimals are equal if they are the same number: the one with fewer places would have
to end in a zero. -/
theorem eq_of_reduced (ha : a.scale = 0 ∨ a.coeff % 10 ≠ 0) (hb : b.scale = 0 ∨ b.coeff % 10 ≠ 0)
    (h : Same a b) : a = b := by
  have hscale : a.scale = b.scale := le_antisymm (h.symm.scale_le ha) (h.scale_le hb)
  have hcoeff : a.coeff = b.coeff := by
    rw [Same, toRat_eq_div, toRat_eq_div, hscale, div_left_inj' (pow_scale_pos b).ne'] at h
    exact_mod_cast h
  cases a
  cases b
  simp_all

/-- **Reduced decimals are equal exactly if they are the same number.**  So a decimal without
trailing zeros stands for its number.
Source: `normalize`. -/
theorem reduce_eq_iff : a.reduce = b.reduce ↔ Same a b := by
  constructor
  · intro h
    rw [Same, ← toRat_reduce a, h, toRat_reduce]
  · intro h
    refine eq_of_reduced a.reduced_reduce b.reduced_reduce ?_
    rw [Same, toRat_reduce, toRat_reduce, h]

/-- The text of a decimal is that of its number, since it is written without trailing zeros. -/
theorem Same.toText (h : Same a b) : a.toText = b.toText := by
  unfold Decimal.toText toChars
  rw [h.isNegative, reduce_eq_iff.mpr h]

end Decimal

end CostBasis
