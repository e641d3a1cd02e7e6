import CostBasis.Decimal.Basic
import Mathlib

/-!
# Rounding to a grid

A number is rounded to an integer by going to the nearest one, and from half-way between two of them
to the even one.  This says which integer it is, so a rounded number is known by being near and
even, and rounding does the same on both sides of zero.

A grid has the whole multiples of a power of ten.  To round a number to some places is to take the
nearest point of their grid.

Main statements: `halfEven_eq`, `natAbs_halfEven_lt_iff`, `abs_nearest_sub_le`.
-/

namespace CostBasis

/-! ## Rounding to integers -/

namespace Rounding

/-- Rounding to an integer goes to a nearest one, which is a half away at most. -/
theorem abs_halfEven_sub_le (q : ℚ) : |(halfEven q : ℚ) - q| ≤ 1 / 2 := by
  have hbelow : ((q.floor : ℤ) : ℚ) ≤ q := Rat.floor_le q
  have habove : q < (q.floor : ℤ) + 1 := by exact_mod_cast Rat.lt_floor_add_one q
  unfold halfEven
  simp only
  rw [abs_le]
  split_ifs <;> push_cast <;> constructor <;> linarith

/-- What lies half-way between two integers goes to the even one.
Source: `round_dp`, which breaks ties to even. -/
theorem halfEven_emod_two {q : ℚ} (h : |(halfEven q : ℚ) - q| = 1 / 2) : halfEven q % 2 = 0 := by
  have hbelow : ((q.floor : ℤ) : ℚ) ≤ q := Rat.floor_le q
  have habove : q < (q.floor : ℤ) + 1 := by exact_mod_cast Rat.lt_floor_add_one q
  unfold halfEven at h ⊢
  simp only at h ⊢
  split_ifs at h ⊢ with hnear hfar heven
  · rw [abs_of_nonpos (by linarith)] at h
    linarith
  · push_cast at h
    rw [abs_of_nonneg (by linarith)] at h
    linarith
  · exact heven
  · omega

/-- Rounding stays below an even bound exactly for the numbers that are more than a half below it.
An odd bound would be met from half-way below by the even number under it. -/
theorem natAbs_halfEven_lt_iff {q : ℚ} {m : ℕ} (hm : m % 2 = 0) :
    (halfEven q).natAbs < m ↔ |q| + 1 / 2 < m := by
  have hnear := abs_halfEven_sub_le q
  have hcast : ((halfEven q).natAbs : ℚ) = |(halfEven q : ℚ)| := by
    rw [Nat.cast_natAbs, Int.cast_abs]
  constructor
  · intro hlt
    have hle : |(halfEven q : ℚ)| + 1 ≤ m := by
      rw [← hcast]
      exact_mod_cast hlt
    have htriangle := abs_sub_abs_le_abs_sub q (halfEven q : ℚ)
    rw [abs_sub_comm] at htriangle
    by_contra hge
    -- All bounds are met, so the number lies half-way, and is rounded to an odd integer.
    have habs : |(halfEven q : ℚ)| + 1 = m := by linarith
    have heven := halfEven_emod_two (q := q) (by linarith)
    have hint : (halfEven q).natAbs + 1 = m := by
      rw [← hcast] at habs
      exact_mod_cast habs
    omega
  · intro hlt
    have htriangle := abs_sub_abs_le_abs_sub (halfEven q : ℚ) q
    have hlt' : ((halfEven q).natAbs : ℚ) < m := by
      rw [hcast]
      linarith
    exact_mod_cast hlt'

/-- Two integers that are within a half of a number, and even if just a half away, are equal.  So
the two properties above say all there is to say of the rounding. -/
theorem eq_of_abs_sub_le {q : ℚ} {m n : ℤ} (hm : |(m : ℚ) - q| ≤ 1 / 2) (hn : |(n : ℚ) - q| ≤ 1 / 2)
    (hmeven : |(m : ℚ) - q| = 1 / 2 → m % 2 = 0) (hneven : |(n : ℚ) - q| = 1 / 2 → n % 2 = 0) :
    m = n := by
  wlog hle : m ≤ n generalizing m n
  · exact (this hn hm hneven hmeven (le_of_not_ge hle)).symm
  by_contra hne
  have hstep : (m : ℚ) + 1 ≤ n := by exact_mod_cast lt_of_le_of_ne hle hne
  rw [abs_le] at hm hn
  -- The number lies half-way between them, so both are even.
  have hbelow : |(m : ℚ) - q| = 1 / 2 := by
    rw [abs_of_nonpos (by linarith)]
    linarith
  have habove : |(n : ℚ) - q| = 1 / 2 := by
    rw [abs_of_nonneg (by linarith)]
    linarith
  have hnext : (n : ℚ) = m + 1 := by linarith
  have hnext : n = m + 1 := by exact_mod_cast hnext
  have := hmeven hbelow
  have := hneven habove
  omega

/-- **An integer is what a number is rounded to** if it is within a half of it, and even if it is
just a half away. -/
theorem halfEven_eq {q : ℚ} {n : ℤ} (hnear : |(n : ℚ) - q| ≤ 1 / 2)
    (heven : |(n : ℚ) - q| = 1 / 2 → n % 2 = 0) : halfEven q = n :=
  eq_of_abs_sub_le (abs_halfEven_sub_le q) hnear halfEven_emod_two heven

/-- Integers are not rounded. -/
theorem halfEven_intCast (n : ℤ) : halfEven n = n := by
  refine halfEven_eq ?_ fun hhalf => ?_
  · rw [sub_self]
    norm_num
  · rw [sub_self] at hhalf
    norm_num at hhalf

/-- Rounding does the same on both sides of zero.  This is what lets the two sides of a market be
compared where sums are rounded. -/
theorem halfEven_neg (q : ℚ) : halfEven (-q) = -halfEven q := by
  have habs : |((-halfEven q : ℤ) : ℚ) - -q| = |(halfEven q : ℚ) - q| := by
    rw [← abs_neg]
    congr 1
    push_cast
    ring
  refine halfEven_eq ?_ fun hhalf => ?_
  · rw [habs]
    exact abs_halfEven_sub_le q
  · rw [habs] at hhalf
    have := halfEven_emod_two hhalf
    omega

end Rounding

/-! ## Grids -/

/-- The number is a whole multiple of `10 ^ -places`. -/
def OnGrid (places : ℕ) (q : ℚ) : Prop := ∃ n : ℤ, q * 10 ^ places = n

instance (places : ℕ) (q : ℚ) : Decidable (OnGrid places q) :=
  decidable_of_iff ((q * 10 ^ places).den = 1) <| by
    constructor
    · intro h
      exact ⟨(q * 10 ^ places).num, ((Rat.den_eq_one_iff _).mp h).symm⟩
    · rintro ⟨n, hn⟩
      rw [hn]
      exact Rat.den_intCast n

namespace OnGrid

variable {places more : ℕ} {q r : ℚ}

/-- A finer grid has all points of a coarser one. -/
theorem mono (h : OnGrid places q) (hle : places ≤ more) : OnGrid more q := by
  obtain ⟨n, hn⟩ := h
  refine ⟨n * 10 ^ (more - places), ?_⟩
  push_cast
  rw [← hn, mul_assoc, ← pow_add, Nat.add_sub_cancel' hle]

/-- Zero lies on every grid. -/
theorem zero : OnGrid places 0 := ⟨0, by simp⟩

/-- A grid is the same on both sides of zero. -/
theorem neg (h : OnGrid places q) : OnGrid places (-q) := by
  obtain ⟨n, hn⟩ := h
  exact ⟨-n, by push_cast; rw [← hn, neg_mul]⟩

/-- The sum of two points of a grid is one of its points. -/
theorem add (h : OnGrid places q) (h' : OnGrid places r) : OnGrid places (q + r) := by
  obtain ⟨n, hn⟩ := h
  obtain ⟨m, hm⟩ := h'
  exact ⟨n + m, by push_cast; rw [← hn, ← hm, add_mul]⟩

/-- The difference of two points of a grid is one of its points. -/
theorem sub (h : OnGrid places q) (h' : OnGrid places r) : OnGrid places (q - r) :=
  sub_eq_add_neg q r ▸ h.add h'.neg

/-- The product of points of two grids lies on the grid that has the places of both. -/
theorem mul (h : OnGrid places q) (h' : OnGrid more r) : OnGrid (places + more) (q * r) := by
  obtain ⟨n, hn⟩ := h
  obtain ⟨m, hm⟩ := h'
  refine ⟨n * m, ?_⟩
  push_cast
  rw [← hn, ← hm, pow_add, mul_mul_mul_comm]

/-- A positive number on a grid is one step from zero at least. -/
theorem le_of_pos (h : OnGrid places q) (hq : 0 < q) :
    1 / 10 ^ places ≤ q := by
  obtain ⟨n, hn⟩ := h
  have hpos : (0 : ℚ) < 10 ^ places := by positivity
  have hn0 : (0 : ℚ) < n := hn ▸ mul_pos hq hpos
  rw [div_le_iff₀ hpos, hn]
  exact_mod_cast Int.add_one_le_iff.mpr (by exact_mod_cast hn0 : 0 < n)

/-- Two points of a grid that are less than a step apart are in order as soon as one is not far
below the other. -/
theorem le_of_lt_add (h : OnGrid places q) (h' : OnGrid places r)
    (hlt : q < r + 1 / 10 ^ places) : q ≤ r := by
  obtain ⟨n, hn⟩ := h
  obtain ⟨m, hm⟩ := h'
  have hpos : (0 : ℚ) < 10 ^ places := by positivity
  have hint : (n : ℚ) < m + 1 := by
    rw [← hn, ← hm]
    calc q * 10 ^ places < (r + 1 / 10 ^ places) * 10 ^ places := by gcongr
      _ = r * 10 ^ places + 1 := by field_simp
  have hle : n ≤ m := by exact_mod_cast Int.lt_add_one_iff.mp (by exact_mod_cast hint)
  refine le_of_mul_le_mul_right ?_ hpos
  rw [hn, hm]
  exact_mod_cast hle

end OnGrid

/-! ## The nearest point of a grid -/

namespace Rounding

/-- The number with `places` places that is nearest to `q`; of two equally near ones, the one whose
last place is even. -/
def nearest (q : ℚ) (places : ℕ) : ℚ := halfEven (q * 10 ^ places) / 10 ^ places

/-- The nearest number with some places has these places. -/
theorem onGrid_nearest (q : ℚ) (places : ℕ) : OnGrid places (nearest q places) :=
  ⟨halfEven (q * 10 ^ places), by rw [nearest, div_mul_cancel₀ _ (by positivity)]⟩

/-- Rounding to some places moves a number by half a unit of the last place at most. -/
theorem abs_nearest_sub_le (q : ℚ) (places : ℕ) :
    |nearest q places - q| ≤ 1 / 2 / 10 ^ places := by
  have hpos : (0 : ℚ) < 10 ^ places := by positivity
  have heq : nearest q places - q =
      (halfEven (q * 10 ^ places) - q * 10 ^ places) / 10 ^ places := by
    rw [nearest, sub_div, mul_div_cancel_right₀ _ hpos.ne']
  rw [heq, abs_div, abs_of_pos hpos]
  exact div_le_div_of_nonneg_right (abs_halfEven_sub_le _) hpos.le

/-- A number with these places already is not moved. -/
theorem nearest_eq_self {q : ℚ} {places : ℕ} (h : OnGrid places q) : nearest q places = q := by
  obtain ⟨n, hn⟩ := h
  rw [nearest, hn, halfEven_intCast, ← hn, mul_div_cancel_right₀ _ (by positivity)]

end Rounding

end CostBasis
