import Mathlib

/-!
# The fitted models

The time of a transfer or a codec is taken to be affine in its bytes. Floating-point numbers are
rational here.
-/

namespace Coccl

/-- `cocclLinearModel`, whose coefficients come from a fit. -/
structure LinearModel where
  alphaUs : ℚ
  betaUsPerByte : ℚ
  valid : Bool
  alphaUs_nonneg : 0 ≤ alphaUs
  betaUsPerByte_nonneg : 0 ≤ betaUsPerByte

def LinearModel.invalid : LinearModel := ⟨0, 0, false, le_rfl, le_rfl⟩

structure ProfilePoint where
  bytes : ℚ
  timeUs : ℚ

section

variable (points : List ProfilePoint)

def meanX : ℚ := (points.map (·.bytes)).sum / points.length

def meanY : ℚ := (points.map (·.timeUs)).sum / points.length

def covariance : ℚ :=
  (points.map fun point => (point.bytes - meanX points) * (point.timeUs - meanY points)).sum

def variance : ℚ :=
  (points.map fun point => (point.bytes - meanX points) * (point.bytes - meanX points)).sum

def cocclAutotuneFitLinearModel : LinearModel :=
  if points.length < 2 ∨ ∃ point ∈ points, point.bytes ≤ 0 ∨ point.timeUs ≤ 0 then .invalid
  else if ¬0 < variance points then .invalid
  else
    let betaUsPerByte := max 0 (covariance points / variance points)
    ⟨max 0 (meanY points - betaUsPerByte * meanX points), betaUsPerByte, true,
      le_max_left _ _, le_max_left _ _⟩

/-- How far a line is from the points. -/
def squaredError (alpha beta : ℚ) : ℚ :=
  (points.map fun point => (point.timeUs - alpha - beta * point.bytes) ^ 2).sum

variable {points}

theorem sum_deviations (hpos : 0 < points.length) :
    (points.map fun point => point.bytes - meanX points).sum = 0 ∧
      (points.map fun point => point.timeUs - meanY points).sum = 0 := by
  have hne : (points.length : ℚ) ≠ 0 := by positivity
  simp [sub_eq_add_neg, List.sum_map_add, meanX, meanY, mul_div_cancel₀ _ hne]

/-- The error in terms of the deviations from the means. -/
theorem squaredError_eq (hpos : 0 < points.length) (alpha beta : ℚ) :
    squaredError points alpha beta =
      points.length * (meanY points - alpha - beta * meanX points) ^ 2 +
        (squaredError points (meanY points) 0 +
          (-2 * beta * covariance points + beta ^ 2 * variance points)) := by
  obtain ⟨hx, hy⟩ := sum_deviations hpos
  set c := meanY points - alpha - beta * meanX points with hc
  have hexpand : ∀ point : ProfilePoint, (point.timeUs - alpha - beta * point.bytes) ^ 2 =
      c ^ 2 + ((point.timeUs - meanY points - 0 * point.bytes) ^ 2 +
        (-2 * beta * ((point.bytes - meanX points) * (point.timeUs - meanY points)) +
          beta ^ 2 * ((point.bytes - meanX points) * (point.bytes - meanX points)) +
        (2 * c * (point.timeUs - meanY points) +
          -2 * c * beta * (point.bytes - meanX points)))) := by
    intro point
    rw [hc]
    ring
  simp only [squaredError, hexpand, List.sum_map_add, List.sum_map_mul_left, hx, hy]
  simp [covariance, variance]

/-- The slope is the best of those that do not fall. -/
theorem slope_least {C V beta : ℚ} (hV : 0 < V) (hbeta : 0 ≤ beta) :
    -2 * max 0 (C / V) * C + max 0 (C / V) ^ 2 * V ≤ -2 * beta * C + beta ^ 2 * V := by
  rcases le_total C 0 with hC | hC
  · rw [max_eq_left (div_nonpos_of_nonpos_of_nonneg hC hV.le)]
    nlinarith [mul_nonneg hbeta (neg_nonneg.mpr hC), mul_nonneg (sq_nonneg beta) hV.le]
  · obtain ⟨slope, rfl⟩ : ∃ slope, C = slope * V := ⟨C / V, (div_mul_cancel₀ C hV.ne').symm⟩
    rw [mul_div_cancel_right₀ _ hV.ne', max_eq_right (nonneg_of_mul_nonneg_left hC hV)]
    nlinarith [mul_nonneg (sq_nonneg (beta - slope)) hV.le]

/-- **A fit that passes above the origin is the line of least squares** among those that do not
fall. -/
theorem cocclAutotuneFitLinearModel_least {alpha beta : ℚ}
    (habove : 0 < (cocclAutotuneFitLinearModel points).alphaUs) (hbeta : 0 ≤ beta) :
    squaredError points (cocclAutotuneFitLinearModel points).alphaUs
      (cocclAutotuneFitLinearModel points).betaUsPerByte ≤ squaredError points alpha beta := by
  unfold cocclAutotuneFitLinearModel at *
  split_ifs at * with hpoints hvariance
  · exact absurd habove (lt_irrefl _)
  · have hpos : 0 < points.length := by omega
    dsimp only at *
    rw [lt_max_iff, lt_self_iff_false, false_or] at habove
    rw [max_eq_right habove.le, squaredError_eq hpos, squaredError_eq hpos alpha beta]
    have hslope := slope_least (C := covariance points) hvariance hbeta
    have hmean : 0 ≤ points.length * (meanY points - alpha - beta * meanX points) ^ 2 := by
      positivity
    nlinarith
  · exact absurd habove (lt_irrefl _)

end

theorem fit_twoPoints_least :
    squaredError [⟨1, 2⟩, ⟨2, 3⟩] (cocclAutotuneFitLinearModel [⟨1, 2⟩, ⟨2, 3⟩]).alphaUs
      (cocclAutotuneFitLinearModel [⟨1, 2⟩, ⟨2, 3⟩]).betaUsPerByte ≤
        squaredError [⟨1, 2⟩, ⟨2, 3⟩] 0 2 :=
  cocclAutotuneFitLinearModel_least (by decide +kernel) zero_le_two

end Coccl
