import Mathlib.Data.Rat.Floor
import Mathlib.Tactic.FieldSimp
import Mathlib.Tactic.Linarith
import Mathlib.Tactic.Ring

/-!
# Rounding to a grid

A nearest rounding may go either way at a tie. Whatever it does there, it keeps a value exactly
when the value is a multiple of the step.
-/

namespace OlsDapp.Lib.Rounding

/-- The multiples of the step. -/
def OnGrid (step x : ℚ) : Prop := ∃ n : ℤ, x = n * step

structure Nearest (step : ℚ) (round : ℚ → ℚ) : Prop where
  pos : 0 < step
  grid : ∀ x, OnGrid step (round x)
  near : ∀ x, |round x - x| ≤ step / 2

variable {step x y : ℚ} {round : ℚ → ℚ}

theorem onGrid_zero (step : ℚ) : OnGrid step 0 := ⟨0, by simp⟩

theorem OnGrid.add (hx : OnGrid step x) (hy : OnGrid step y) : OnGrid step (x + y) := by
  obtain ⟨m, rfl⟩ := hx
  obtain ⟨n, rfl⟩ := hy
  refine ⟨m + n, ?_⟩
  push_cast
  ring

theorem OnGrid.sub (hx : OnGrid step x) (hy : OnGrid step y) : OnGrid step (x - y) := by
  obtain ⟨m, rfl⟩ := hx
  obtain ⟨n, rfl⟩ := hy
  refine ⟨m - n, ?_⟩
  push_cast
  ring

/-- A sum with a grid point is on the grid when the other part is. -/
theorem OnGrid.add_iff (hx : OnGrid step x) : OnGrid step (x + y) ↔ OnGrid step y := by
  constructor
  · intro hsum
    have hdiff := hsum.sub hx
    rwa [add_sub_cancel_left] at hdiff
  · exact hx.add

/-- No grid point but 0 is less than a step from 0. -/
theorem OnGrid.eq_zero (hpos : 0 < step) (hx : OnGrid step x) (hnear : |x| < step) : x = 0 := by
  obtain ⟨n, rfl⟩ := hx
  rw [abs_mul, abs_of_pos hpos] at hnear
  have habs : |(n : ℚ)| < 1 := by
    by_contra hge
    have hle : step ≤ |(n : ℚ)| * step := le_mul_of_one_le_left hpos.le (not_lt.mp hge)
    linarith
  have hn : n = 0 := by
    have hint : |n| < 1 := by exact_mod_cast habs
    exact Int.abs_lt_one_iff.mp hint
  rw [hn, Int.cast_zero, zero_mul]

/-- What is added to a grid point is rounded away when it is less than half a step, and not when it
is more. -/
theorem Nearest.round_add_eq_iff (h : Nearest step round) (hx : OnGrid step x)
    (hy : |y| ≠ step / 2) : round (x + y) = x ↔ |y| < step / 2 := by
  have hnear := h.near (x + y)
  constructor
  · intro heq
    rw [heq, sub_add_cancel_left, abs_neg] at hnear
    exact lt_of_le_of_ne hnear hy
  · intro hsmall
    have hlt : |round (x + y) - x| < step := by
      rw [abs_lt] at hsmall ⊢
      rw [abs_le] at hnear
      constructor <;> linarith [hsmall.1, hsmall.2, hnear.1, hnear.2]
    have hdiff := ((h.grid (x + y)).sub hx).eq_zero h.pos hlt
    linarith

/-- A nearest rounding keeps the grid points and nothing else. -/
theorem Nearest.round_eq_self_iff (h : Nearest step round) : round x = x ↔ OnGrid step x := by
  have hhalf : |(0 : ℚ)| < step / 2 := by
    rw [abs_zero]
    exact half_pos h.pos
  constructor
  · intro heq
    rw [← heq]
    exact h.grid x
  · intro hx
    have hround := (h.round_add_eq_iff hx hhalf.ne).mpr hhalf
    rwa [add_zero] at hround

/-- Ties go up. -/
def halfUp (step x : ℚ) : ℚ := ⌊x / step + 1 / 2⌋ * step

theorem halfUp_nearest (hpos : 0 < step) : Nearest step (halfUp step) := by
  refine ⟨hpos, fun x => ⟨_, rfl⟩, fun x => ?_⟩
  have hlow := Int.floor_le (x / step + 1 / 2)
  have hhigh := Int.lt_floor_add_one (x / step + 1 / 2)
  have hdiv : x / step * step = x := div_mul_cancel₀ x hpos.ne'
  rw [halfUp, abs_le]
  constructor
  · have hmul := mul_le_mul_of_nonneg_right hhigh.le hpos.le
    linarith
  · have hmul := mul_le_mul_of_nonneg_right hlow hpos.le
    linarith

end OlsDapp.Lib.Rounding
