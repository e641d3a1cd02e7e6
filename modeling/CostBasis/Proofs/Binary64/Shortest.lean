import CostBasis.Proofs.Binary64.Rounding
import CostBasis.Proofs.Text.Digits

/-!
# The shortest digits of a rounded decimal

The search for digits tries one digit, two digits and so on, and takes the first number that is
rounded to the given one.  If the given one comes from a decimal of fifteen digits, the search finds
this decimal again: two numbers on the grid of fifteen digits are never rounded to the same, since
the steps of that grid are wider than those of the binary one.

Main statements: `decade_eq_log`, `IsShort.eq_of_round_eq`, `IsShort.toRat_shortest`,
`IsShort.exists_shift`.
-/

namespace CostBasis.Binary64

variable {q v x : ℚ} {e top : ℤ} {m n scale : ℕ}

/-! ## Decades -/

/-- Every number has a digit, zero as well. -/
theorem digitCount_pos (n : ℕ) : 0 < digitCount n := List.length_pos_iff.mpr Nat.toDigits_ne_nil

/-- So many digits are enough for a number, and one less is not. -/
theorem pow_digitCount (hn : n ≠ 0) : 10 ^ (digitCount n - 1) ≤ n ∧ n < 10 ^ digitCount n := by
  have hlength {k : ℕ} (hk : 0 < k) : digitCount n ≤ k ↔ n < 10 ^ k :=
    Nat.length_toDigits_le_iff (by decide) hk
  have hpos := digitCount_pos n
  refine ⟨?_, (hlength hpos).mp le_rfl⟩
  rcases Nat.eq_zero_or_pos (digitCount n - 1) with hzero | hmore
  · rw [hzero, pow_zero]
    exact Nat.one_le_iff_ne_zero.mpr hn
  · refine not_lt.mp fun hlt => ?_
    have := (hlength hmore).mpr hlt
    omega

/-- From one on, the digits of the integer part tell the decade.  This is how the search knows where
the first digit stands. -/
theorem digitCount_floor (hq : 1 ≤ q) : (digitCount q.floor.toNat : ℤ) - 1 = Int.log 10 q := by
  have hfloor : (1 : ℤ) ≤ q.floor := Rat.le_floor_iff.mpr (by exact_mod_cast hq)
  obtain ⟨n, hn⟩ := Int.eq_ofNat_of_zero_le (show 0 ≤ q.floor by omega)
  have hbelow : (n : ℚ) ≤ q := by
    have := Rat.floor_le q
    rw [hn] at this
    exact_mod_cast this
  have habove : q < n + 1 := by
    have := Rat.lt_floor_add_one q
    rw [hn] at this
    exact_mod_cast this
  have hpos := digitCount_pos n
  obtain ⟨hlow, hhigh⟩ := pow_digitCount (n := n) (by omega)
  rw [hn, Int.toNat_natCast]
  generalize digitCount n = c at *
  obtain ⟨c, rfl⟩ := Nat.exists_eq_succ_of_ne_zero hpos.ne'
  rw [Nat.succ_sub_one] at hlow
  have hexponent : ((c.succ : ℕ) : ℤ) - 1 = c := by omega
  rw [hexponent]
  refine (log_eq (b := 10) (by decide) ?_ ?_).symm
  · rw [zpow_natCast]
    exact le_trans (by exact_mod_cast hlow) hbelow
  · have hhigh : (n : ℚ) + 1 ≤ 10 ^ (c + 1) := by exact_mod_cast hhigh
    exact_mod_cast habove.trans_le hhigh

/-- **The decade** is the exponent of the power of ten at or below a number.  Below one it is
guessed from the inverse, and the guess may be one too low where the number is a power of ten
itself. -/
theorem decade_eq_log (hq : 0 < q) : decade q = Int.log 10 q := by
  unfold decade
  split
  · next h => exact digitCount_floor h
  · next h =>
      have hinv : 1 ≤ q⁻¹ := (one_le_inv₀ hq).mpr (not_le.mp h).le
      have hlow := Int.zpow_log_le_self (b := 10) (by decide) (inv_pos.mpr hq)
      have hhigh := Int.lt_zpow_succ_log_self (b := 10) (by decide) q⁻¹
      rw [← digitCount_floor hinv] at hlow hhigh
      rw [show q.inv = q⁻¹ from rfl]
      simp only [tenPow_eq]
      generalize digitCount q⁻¹.floor.toNat = c at *
      have hbelow : ((10 : ℕ) : ℚ) ^ (-(c : ℤ)) ≤ q := by
        rw [zpow_neg]
        rw [sub_add_cancel] at hhigh
        exact (inv_lt_of_inv_lt₀ hq hhigh).le
      have habove : q ≤ 10 ^ (-(c : ℤ) + 1) := by
        have hinverse := le_inv_of_le_inv₀ (zpow_pos (by norm_num) _) hlow
        rwa [← zpow_neg, neg_sub, sub_eq_neg_add] at hinverse
      split
      · next hle =>
          refine (log_eq (b := 10) (by decide) hle (habove.trans_lt ?_)).symm
          exact zpow_lt_zpow_right₀ (by norm_num) (lt_add_one _)
      · next hlt => exact (log_eq (b := 10) (by decide) hbelow (not_le.mp hlt)).symm

/-! ## Neighbours that are read back -/

/-- The multiple of the step at a number and the one above it are tried, in either order. -/
theorem exists_neighbour?_eq (v : ℚ) (e : ℤ) : ∃ first second : ℕ,
    ((first = (v / 10 ^ e).floor.toNat ∧ second = (v / 10 ^ e).floor.toNat + 1) ∨
      (first = (v / 10 ^ e).floor.toNat + 1 ∧ second = (v / 10 ^ e).floor.toNat)) ∧
    neighbour? v e =
      if round (first * 10 ^ e) = v then some first
      else if round (second * 10 ^ e) = v then some second else none := by
  unfold neighbour?
  simp only [tenPow_eq, beq_iff_eq]
  split
  · exact ⟨_, _, .inl ⟨rfl, rfl⟩, rfl⟩
  · exact ⟨_, _, .inr ⟨rfl, rfl⟩, rfl⟩

/-- What is found is rounded to the number, whichever of the two neighbours it is. -/
theorem round_neighbour? (h : neighbour? v e = some n) : round (n * 10 ^ e) = v := by
  obtain ⟨first, second, -, heq⟩ := exists_neighbour?_eq v e
  rw [heq] at h
  split at h
  · next hfirst => exact Option.some.inj h ▸ hfirst
  · split at h
    · next hsecond => exact Option.some.inj h ▸ hsecond
    · contradiction

/-- A multiple of the step that is rounded to the number, and is less than a step away, is not
missed.  It is one of the two neighbours, and both are tried. -/
theorem neighbour?_ne_none (hv : 0 ≤ v) (hround : round (n * 10 ^ e) = v)
    (hnear : |v - n * 10 ^ e| < 10 ^ e) : neighbour? v e ≠ none := by
  have hstep : (0 : ℚ) < 10 ^ e := zpow_pos (by norm_num) e
  have hdist : |v / 10 ^ e - n| < 1 := by
    rw [← div_self hstep.ne', ← mul_div_cancel_right₀ (n : ℚ) hstep.ne', ← sub_div, abs_div,
      abs_of_pos hstep]
    exact div_lt_div_of_pos_right hnear hstep
  obtain ⟨hlow, hhigh⟩ := abs_lt.mp hdist
  have hquotient : 0 ≤ v / 10 ^ e := div_nonneg hv hstep.le
  have hbelow := Rat.floor_le (v / 10 ^ e)
  have habove := Rat.lt_floor_add_one (v / 10 ^ e)
  push_cast at habove
  have hfloor : 0 ≤ (v / 10 ^ e).floor := Rat.le_floor_iff.mpr (by exact_mod_cast hquotient)
  -- The integer below is this multiple or the one before it.
  have hcases : n = (v / 10 ^ e).floor.toNat ∨ n = (v / 10 ^ e).floor.toNat + 1 := by
    have h1 : (n : ℤ) - 1 < (v / 10 ^ e).floor + 1 := by
      have : ((n : ℤ) : ℚ) - 1 < (v / 10 ^ e).floor + 1 := by
        push_cast
        linarith
      exact_mod_cast this
    have h2 : (v / 10 ^ e).floor < (n : ℤ) + 1 := by
      have : ((v / 10 ^ e).floor : ℚ) < ((n : ℤ) : ℚ) + 1 := by
        push_cast
        linarith
      exact_mod_cast this
    omega
  obtain ⟨first, second, horder, heq⟩ := exists_neighbour?_eq v e
  have hmem : n = first ∨ n = second := by omega
  rw [heq]
  split
  · exact Option.some_ne_none _
  · next hfirst =>
      rcases hmem with rfl | rfl
      · exact absurd hround hfirst
      · rw [if_pos hround]
        exact Option.some_ne_none _

/-! ## The search -/

/-- **The search ends at fifteen digits**, if there is a number with fifteen digits to be found; and
what it finds is this number, if no other one on that grid is rounded to the same. -/
theorem shortestFrom_eq (hfound : neighbour? v (top - 14) ≠ none)
    (hunique : ∀ (n : ℕ) (e : ℤ), top - 14 ≤ e → round (n * 10 ^ e) = v → n * 10 ^ e = x)
    (fuel count : ℕ) (hcount : count ≤ 15) (hfuel : 15 < count + fuel) :
    ∃ (n : ℕ) (e : ℤ), shortestFrom v top fuel count = (n, e) ∧ top - 14 ≤ e ∧ n * 10 ^ e = x := by
  induction fuel generalizing count with
  | zero => omega
  | succ fuel ih =>
      rw [shortestFrom]
      cases h : neighbour? v (top - count + 1) with
      | some n =>
          have he : top - 14 ≤ top - count + 1 := by omega
          exact ⟨n, _, rfl, he, hunique n _ he (round_neighbour? h)⟩
      | none =>
          have hne : count ≠ 15 := by
            rintro rfl
            exact hfound (by rwa [show top - ((15 : ℕ) : ℤ) + 1 = top - 14 by push_cast; ring] at h)
          exact ih _ (by omega) (by omega)

/-- Trailing zeros make no difference to the number: they go out of the mantissa and into the
exponent. -/
theorem dropZeros_eq (fuel m : ℕ) (e : ℤ) :
    ((dropZeros fuel m e).1 : ℚ) * 10 ^ (dropZeros fuel m e).2 = m * 10 ^ e := by
  induction fuel generalizing m e with
  | zero => rfl
  | succ fuel ih =>
      rw [dropZeros]
      split
      · next h =>
          have hten : (m : ℚ) = (m / 10 : ℕ) * 10 := by
            exact_mod_cast (Nat.div_mul_cancel (Nat.dvd_of_mod_eq_zero h.2)).symm
          rw [ih, zpow_add_one₀ (by norm_num), hten]
          ring
      · rfl

/-- With enough fuel, no zero is left at the end.  There is enough if the mantissa has no more
digits than there is fuel. -/
theorem dropZeros_mod {fuel : ℕ} (hm : m ≠ 0) (hfuel : m < 10 ^ fuel) (e : ℤ) :
    (dropZeros fuel m e).1 % 10 ≠ 0 := by
  induction fuel generalizing m e with
  | zero =>
      rw [pow_zero] at hfuel
      omega
  | succ fuel ih =>
      rw [pow_succ] at hfuel
      rw [dropZeros]
      split
      · next h => exact ih (by omega) (by omega) _
      · next h => exact fun hzero => h ⟨hm, hzero⟩

/-- What the search finds is a number other than zero, even if it ends without success and takes the
digits it has come to. -/
theorem shortestFrom_ne_zero (hv : 0 < v) (htop : 10 ^ top ≤ v) (fuel : ℕ) {count : ℕ}
    (hcount : 1 ≤ count) : (shortestFrom v top fuel count).1 ≠ 0 := by
  induction fuel generalizing count with
  | zero =>
      have hstep : (0 : ℚ) < 10 ^ (top - count + 1) := zpow_pos (by norm_num) _
      have hle : (10 : ℚ) ^ (top - count + 1) ≤ 10 ^ top :=
        zpow_le_zpow_right₀ (by norm_num) (by omega)
      have hfloor : (1 : ℤ) ≤ (v / 10 ^ (top - count + 1)).floor := by
        rw [Rat.le_floor_iff, Int.cast_one, le_div_iff₀ hstep, one_mul]
        exact hle.trans htop
      rw [shortestFrom, tenPow_eq]
      simp only
      omega
  | succ fuel ih =>
      rw [shortestFrom]
      cases h : neighbour? v (top - count + 1) with
      | some n =>
          rintro rfl
          have hzero := round_neighbour? h
          rw [Nat.cast_zero, zero_mul, round_zero] at hzero
          exact hv.ne hzero
      | none => exact ih (Nat.le_add_left _ _)

/-- There is a digit other than zero in the shortest digits of a positive number. -/
theorem mantissa_shortest_ne_zero (hv : 0 < v) : (shortest v).mantissa ≠ 0 := by
  have htop : 10 ^ decade v ≤ v := by
    rw [decade_eq_log hv]
    exact Int.zpow_log_le_self (b := 10) (by decide) hv
  have hne := shortestFrom_ne_zero hv htop 17 le_rfl
  have hvalue := dropZeros_eq 18 (shortestFrom v (decade v) 17 1).1
    (shortestFrom v (decade v) 17 1).2
  intro hzero
  have hzero : (dropZeros 18 (shortestFrom v (decade v) 17 1).1
    (shortestFrom v (decade v) 17 1).2).1 = 0 := hzero
  rw [hzero, Nat.cast_zero, zero_mul, eq_comm, mul_eq_zero, Nat.cast_eq_zero] at hvalue
  exact hvalue.elim hne (zpow_ne_zero _ (by norm_num))

/-! ## Decimals of fifteen digits -/

/-- A positive number with fifteen digits at most, of which 22 stand behind the point at most. -/
structure IsShort (x : ℚ) (m scale : ℕ) : Prop where
  eq_div : x = m / 10 ^ scale
  ne_zero : m ≠ 0
  lt : m < 10 ^ 15
  scale_le : scale ≤ 22

namespace IsShort

/-- A number of this form is one in its last place at least. -/
theorem le (h : IsShort x m scale) : 1 / 10 ^ 22 ≤ x := by
  have hone : (1 : ℚ) ≤ m := by exact_mod_cast Nat.one_le_iff_ne_zero.mpr h.ne_zero
  have hscale := h.scale_le
  rw [h.eq_div]
  gcongr
  norm_num

/-- A number of this form is far from the small end of the binary grid. -/
theorem isNormal (h : IsShort x m scale) : IsNormal x :=
  isNormal_of_le (le_trans (by norm_num) h.le)

/-- A number of this form is positive. -/
theorem pos (h : IsShort x m scale) : 0 < x := h.isNormal.pos

/-- Its rounded number is not much smaller. -/
theorem le_round (h : IsShort x m scale) : 1 / 10 ^ 23 ≤ round x := by
  have hlow := h.le
  have hnear := neg_le_of_abs_le (abs_round_sub_le h.isNormal)
  have hle : roundoff * x ≤ 1 / (9 * 10 ^ 15) * x :=
    mul_le_mul_of_nonneg_right roundoff_le h.pos.le
  linarith

/-- Rounding leads to no further digit before the point: a number of fifteen digits is not rounded
up to a power of ten. -/
theorem round_lt (h : IsShort x m scale) : round x < 10 ^ (15 - scale : ℤ) := by
  have hpow : (0 : ℚ) < 10 ^ scale := by positivity
  have hm : (m : ℚ) + 1 ≤ 10 ^ 15 := by exact_mod_cast h.lt
  have hnear := le_of_abs_le (abs_round_sub_le h.isNormal)
  have hsmall := roundoff_le
  have hroundoff := roundoff_pos
  have herror : roundoff * m ≤ 1 / (9 * 10 ^ 15) * 10 ^ 15 :=
    mul_le_mul hsmall (by linarith) (Nat.cast_nonneg m) (by norm_num)
  have hle : round x * 10 ^ scale ≤ (x + roundoff * x) * 10 ^ scale := by
    gcongr
    linarith
  have hcoeff : (x + roundoff * x) * 10 ^ scale = m + roundoff * m := by
    rw [h.eq_div, ← mul_div_assoc, ← add_div, div_mul_cancel₀ _ hpow.ne']
  rw [zpow_sub₀ (by norm_num), zpow_natCast, lt_div_iff₀ hpow]
  calc round x * 10 ^ scale ≤ m + roundoff * m := hle.trans hcoeff.le
    _ < m + 1 := by linarith
    _ ≤ 10 ^ (15 : ℤ) := hm

/-- Its rounded number has no more digits before the point than it has itself. -/
theorem decade_le (h : IsShort x m scale) : decade (round x) ≤ 14 - scale := by
  have hpos := round_pos h.isNormal
  rw [decade_eq_log hpos]
  have := (Int.lt_zpow_iff_log_lt (b := 10) (by decide) hpos).mp h.round_lt
  omega

/-- Its rounded number is not far behind the point. -/
theorem le_decade (h : IsShort x m scale) : -23 ≤ decade (round x) := by
  have hpos := round_pos h.isNormal
  rw [decade_eq_log hpos]
  refine (Int.zpow_le_iff_le_log (b := 10) (by decide) hpos).mp ?_
  exact le_trans (by norm_num) h.le_round

end IsShort

/-- A multiple of a power of ten is one of each lower power. -/
theorem exists_mul_zpow (n : ℕ) {e f : ℤ} (h : f ≤ e) :
    ∃ k : ℕ, (n : ℚ) * 10 ^ e = k * 10 ^ f := by
  obtain ⟨d, hd⟩ := Int.eq_ofNat_of_zero_le (sub_nonneg.mpr h)
  refine ⟨n * 10 ^ d, ?_⟩
  rw [← sub_add_cancel e f, hd, zpow_add₀ (by norm_num)]
  push_cast
  rw [zpow_natCast, mul_assoc]

/-- The next decade begins fifteen digits above the step of the grid. -/
theorem zpow_succ_eq (top : ℤ) : (10 : ℚ) ^ (top + 1) = 10 ^ 15 * 10 ^ (top - 14) := by
  rw [show top + 1 = 15 + (top - 14) by ring, zpow_add₀ (by norm_num)]
  norm_cast

/-- The steps of the grid of fifteen digits are wider than the error of rounding. -/
theorem abs_round_sub_le_step (hq : IsNormal q) (hlt : round q < 10 ^ (top + 1)) :
    |round q - q| ≤ 1 / 9 * 10 ^ (top - 14) := by
  calc |round q - q| ≤ roundoff * round q := abs_round_sub_le_round hq
    _ ≤ 1 / (9 * 10 ^ 15) * (10 ^ 15 * 10 ^ (top - 14)) := by
        rw [← zpow_succ_eq]
        exact mul_le_mul roundoff_le hlt.le (round_pos hq).le (by norm_num)
    _ = 1 / 9 * 10 ^ (top - 14) := by ring

namespace IsShort

/-- A rounded number is below the next decade. -/
theorem round_lt_zpow (h : IsShort x m scale) : round x < 10 ^ (decade (round x) + 1) := by
  rw [decade_eq_log (round_pos h.isNormal)]
  exact Int.lt_zpow_succ_log_self (by decide) _

/-- The number lies on the grid of fifteen digits, which begins where its rounded number does. -/
theorem exists_eq_mul (h : IsShort x m scale) :
    ∃ j : ℕ, x = j * 10 ^ (decade (round x) - 14) := by
  have htop := h.decade_le
  obtain ⟨j, hj⟩ := exists_mul_zpow m (show decade (round x) - 14 ≤ -(scale : ℤ) by omega)
  refine ⟨j, ?_⟩
  rw [← hj, zpow_neg, zpow_natCast, ← div_eq_mul_inv]
  exact h.eq_div

/-- **Two numbers on the grid of fifteen digits** are not rounded to the same.  Both would be within
the error of rounding of one binary number, and the step of the grid is more than twice as wide. -/
theorem eq_of_round_eq (h : IsShort x m scale) (he : decade (round x) - 14 ≤ e)
    (hround : round (n * 10 ^ e) = round x) : n * 10 ^ e = x := by
  have hlt := h.round_lt_zpow
  have hlow := h.le_decade
  obtain ⟨j, hj⟩ := h.exists_eq_mul
  obtain ⟨i, hi⟩ := exists_mul_zpow n he
  generalize decade (round x) = top at *
  have hstep : (0 : ℚ) < 10 ^ (top - 14) := zpow_pos (by norm_num) _
  have hnormal : IsNormal (n * 10 ^ e) := by
    have hi0 : i ≠ 0 := by
      rintro rfl
      rw [hi, Nat.cast_zero, zero_mul, round_zero] at hround
      exact (round_pos h.isNormal).ne hround
    refine isNormal_of_le ?_
    calc (1 : ℚ) / 10 ^ 40 ≤ 10 ^ (-37 : ℤ) := by norm_num
      _ ≤ 10 ^ (top - 14) := zpow_le_zpow_right₀ (by norm_num) (by omega)
      _ ≤ i * 10 ^ (top - 14) :=
        le_mul_of_one_le_left hstep.le (by exact_mod_cast Nat.one_le_iff_ne_zero.mpr hi0)
      _ = n * 10 ^ e := hi.symm
  have hnear := abs_round_sub_le_step h.isNormal hlt
  have hnear' := abs_round_sub_le_step hnormal (hround ▸ hlt)
  rw [hround] at hnear'
  -- Both are near to the rounded number, so less than a step apart.
  have hclose : |(i : ℚ) - j| < 1 := by
    refine lt_of_mul_lt_mul_right ?_ hstep.le
    calc |(i : ℚ) - j| * 10 ^ (top - 14) = |n * 10 ^ e - x| := by
          rw [hi, hj, ← sub_mul, abs_mul, abs_of_pos hstep]
      _ ≤ |n * 10 ^ e - round x| + |round x - x| := abs_sub_le _ _ _
      _ ≤ 1 / 9 * 10 ^ (top - 14) + 1 / 9 * 10 ^ (top - 14) := by
          rw [abs_sub_comm (n * 10 ^ e : ℚ)]
          exact add_le_add hnear' hnear
      _ < 1 * 10 ^ (top - 14) := by linarith
  have hij : (i : ℤ) = j := by
    refine sub_eq_zero.mp (Int.abs_lt_one_iff.mp ?_)
    exact_mod_cast hclose
  rw [hi, hj, Int.ofNat_inj.mp hij]

/-- Fifteen digits are enough to find the number, since it is itself on their grid.  So the search
comes to an end there at the latest. -/
theorem neighbour?_ne_none (h : IsShort x m scale) :
    neighbour? (round x) (decade (round x) - 14) ≠ none := by
  have hstep : (0 : ℚ) < 10 ^ (decade (round x) - 14) := zpow_pos (by norm_num) _
  have hnear := abs_round_sub_le_step h.isNormal h.round_lt_zpow
  obtain ⟨j, hj⟩ := h.exists_eq_mul
  refine Binary64.neighbour?_ne_none (round_pos h.isNormal).le (by rw [← hj]) ?_
  rw [← hj]
  linarith

end IsShort

/-- The power of ten of the last digit. -/
def Scientific.lowest (s : Scientific) : ℤ := s.exponent + 1 - digitCount s.mantissa

/-- The number that the digits stand for. -/
def Scientific.toRat (s : Scientific) : ℚ := s.mantissa * 10 ^ s.lowest

/-- **The shortest digits of a rounded number of fifteen digits** are those of the number, without
trailing zeros. -/
theorem IsShort.toRat_shortest (h : IsShort x m scale) :
    (shortest (round x)).toRat = x ∧ (shortest (round x)).mantissa % 10 ≠ 0 := by
  have hpos := round_pos h.isNormal
  obtain ⟨n, e, hsearch, he, hn⟩ := shortestFrom_eq h.neighbour?_ne_none
    (fun n e he hround => h.eq_of_round_eq he hround) 17 1 (by decide) (by decide)
  have hn0 : n ≠ 0 := by
    rintro rfl
    rw [Nat.cast_zero, zero_mul] at hn
    exact h.pos.ne hn
  have hlt : n < 10 ^ 18 := by
    have hstep : (0 : ℚ) < 10 ^ (decade (round x) - 14) := zpow_pos (by norm_num) _
    have hnear := neg_le_of_abs_le (abs_round_sub_le_step h.isNormal h.round_lt_zpow)
    have hround := h.round_lt_zpow
    rw [zpow_succ_eq] at hround
    have hle : (n : ℚ) * 10 ^ (decade (round x) - 14) ≤ n * 10 ^ e :=
      mul_le_mul_of_nonneg_left (zpow_le_zpow_right₀ (by norm_num) he) (Nat.cast_nonneg n)
    have hlt : (n : ℚ) < 10 ^ 18 := by
      refine lt_of_mul_lt_mul_right ?_ hstep.le
      linarith
    exact_mod_cast hlt
  have hvalue := dropZeros_eq 18 n e
  have hmod := dropZeros_mod hn0 hlt e
  have hshortest : shortest (round x) = ⟨(dropZeros 18 n e).1,
      (dropZeros 18 n e).2 + digitCount (dropZeros 18 n e).1 - 1⟩ := by
    rw [shortest, hsearch]
  rw [hshortest, Scientific.toRat, Scientific.lowest]
  simp only
  rw [sub_add_cancel, add_sub_cancel_right]
  exact ⟨hvalue.trans hn, hmod⟩

/-- The shortest digits are those of the number but for the zeros at its end.  The search may stop
before all fifteen digits; then the others are zeros, since no two numbers of fifteen digits are
rounded to the same one. -/
theorem IsShort.exists_shift (h : IsShort x m scale) :
    ∃ d : ℕ, (shortest (round x)).lowest = d - scale ∧
      (shortest (round x)).mantissa * 10 ^ d = m := by
  obtain ⟨hvalue, hmod⟩ := h.toRat_shortest
  generalize shortest (round x) = s at *
  rw [Scientific.toRat, h.eq_div, eq_div_iff (by positivity), mul_assoc, ← zpow_natCast,
    ← zpow_add₀ (by norm_num)] at hvalue
  rcases le_or_gt 0 (s.lowest + scale) with hle | hlt
  · obtain ⟨d, hd⟩ := Int.eq_ofNat_of_zero_le hle
    rw [hd, zpow_natCast] at hvalue
    exact ⟨d, by omega, by exact_mod_cast hvalue⟩
  · -- The last digit would be a zero.
    obtain ⟨d, hd⟩ := Int.eq_ofNat_of_zero_le (neg_nonneg.mpr hlt.le)
    rw [show s.lowest + scale = -(d : ℤ) by omega, zpow_neg, zpow_natCast, ← div_eq_mul_inv,
      div_eq_iff (by positivity)] at hvalue
    have hvalue : s.mantissa = m * 10 ^ d := by exact_mod_cast hvalue
    obtain ⟨d, rfl⟩ : ∃ k, d = k + 1 := ⟨d - 1, by omega⟩
    refine absurd ?_ hmod
    rw [hvalue, pow_succ, ← mul_assoc, Nat.mul_mod_left]

end CostBasis.Binary64
