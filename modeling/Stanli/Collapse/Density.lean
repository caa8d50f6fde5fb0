import Mathlib.Probability.Distributions.Gaussian.Real
import Mathlib.Analysis.SpecialFunctions.Log.Deriv
import Stanli.Collapse.Statistics

/-!
# The densities the closed forms stand for

The log density of a normal observation, with or without its log-scale term and its constant, and the
sum of such terms over observations whose location and scale are shared or one per group.  The partials
of that sum are sums over the observations as well.
-/

namespace Stanli.Collapse

open Real

noncomputable section

/-- `NEG_LOG_SQRT_TWO_PI`. -/
def negLogSqrtTwoPi : ℝ := -log √(2 * π)

/-- The log density of one normal observation, as far as it is kept. -/
def normalTerm (logScale constant : Bool) (y mu sigma : ℝ) : ℝ :=
  -(1 / 2) * ((y - mu) / sigma) ^ 2 - (if logScale then log sigma else 0) +
    (if constant then negLogSqrtTwoPi else 0)

theorem hasDerivAt_normalTerm_location (logScale constant : Bool) (y mu : ℝ) {sigma : ℝ}
    (hs : 0 < sigma) :
    HasDerivAt (fun m => normalTerm logScale constant y m sigma) ((y - mu) / sigma ^ 2) mu := by
  have hr : HasDerivAt (fun m => (y - m) / sigma) (-1 / sigma) mu :=
    ((hasDerivAt_id mu).const_sub y).div_const sigma
  have h := (((hr.pow 2).const_mul (-(1 / 2))).sub_const
    (if logScale then log sigma else 0)).add_const (if constant then negLogSqrtTwoPi else 0)
  apply h.congr_deriv
  have hs' := hs.ne'
  simp only [Nat.cast_ofNat, Nat.add_one_sub_one, pow_one]
  field_simp

theorem hasDerivAt_normalTerm_scale (constant : Bool) (y mu : ℝ) {sigma : ℝ} (hs : 0 < sigma) :
    HasDerivAt (fun s => normalTerm true constant y mu s)
      ((y - mu) ^ 2 / sigma ^ 3 - 1 / sigma) sigma := by
  have hs' := hs.ne'
  have hr : HasDerivAt (fun s => (y - mu) / s) (-((y - mu) / sigma ^ 2)) sigma := by
    have h := (hasDerivAt_const sigma (y - mu)).div (hasDerivAt_id sigma) hs'
    apply h.congr_deriv
    simp only [id]
    ring
  have h := (((hr.pow 2).const_mul (-(1 / 2))).sub (hasDerivAt_log hs')).add_const
    (if constant then negLogSqrtTwoPi else 0)
  apply h.congr_deriv
  simp only [Nat.cast_ofNat, Nat.add_one_sub_one, pow_one]
  field_simp

/-- The log density of one lognormal observation, as far as it is kept, or of one normal one. -/
def densityTerm (lognormal logScale constant : Bool) (y mu sigma : ℝ) : ℝ :=
  if lognormal then normalTerm logScale constant (log y) mu sigma - log y
  else normalTerm logScale constant y mu sigma

/-- The sum over observations, each with the location and the scale of its group. -/
def densitySum (lognormal logScale constant : Bool) (obs : List (Observation ℝ)) (mu sigma : Desc ℝ) :
    ℝ :=
  (obs.map fun o => densityTerm lognormal logScale constant o.1 (mu.at_ o.2) (sigma.at_ o.2)).sum

/-- Under propto the log-scale term goes with a scale that is not active. -/
def keepsLogScale (variant : UInt8) : Bool :=
  !hasBit variant kGroupedPropto || hasBit variant kGroupedScaleActive

/-- Under propto the constant goes, but not a lognormal's. -/
def keepsConstant (variant : UInt8) : Bool :=
  !hasBit variant kGroupedPropto || hasBit variant kGroupedLognormal

theorem densityValue_eq {α : Type*} [Field α] (nlstp : α) (variant : UInt8)
    (quadratic logScale total constant : α) :
    densityValue nlstp variant quadratic logScale total constant =
      -(1 / 2) * quadratic - (if keepsLogScale variant then logScale else 0) +
        (if keepsConstant variant then total * nlstp else 0) + constant := by
  rw [densityValue, keepsLogScale, keepsConstant]
  split_ifs <;> ring

/-- A kernel's value and scratch are those of a density: the value keeps the log-scale term as the
variant says, and the partials by the scale are of the density with that term. -/
structure KernelValue.Exact (kv : KernelValue ℝ) (keep : Bool)
    (density : Bool → Desc ℝ → Desc ℝ → ℝ) (location sigma : Desc ℝ) : Prop where
  value : kv.value = density keep location sigma
  dLocation : ∀ k < location.len,
    HasDerivAt (fun x => density keep (location.set k x) sigma) (kv.scratch.getD k 0)
      (location.data k)
  dScale : ∀ k < sigma.len,
    HasDerivAt (fun x => density true location (sigma.set k x))
      (kv.scratch.getD (location.len + k) 0) (sigma.data k)

/-- The sum of the normal terms. -/
def normalSum (logScale constant : Bool) (obs : List (Observation ℝ)) (mu sigma : Desc ℝ) : ℝ :=
  (obs.map fun o => normalTerm logScale constant o.1 (mu.at_ o.2) (sigma.at_ o.2)).sum

/-- The kernels see a normal sum of the values passed on, and the constant makes up for the rest. -/
theorem densitySum_eq (lognormal logScale constant : Bool) {y : List ℝ} {groupOf : List ℕ}
    (hlen : y.length = groupOf.length) (mu sigma : Desc ℝ) :
    densitySum lognormal logScale constant (y.zip groupOf) mu sigma =
      normalSum logScale constant ((collapsedVariate log lognormal y).1.zip groupOf) mu sigma +
        (collapsedVariate log lognormal y).2 := by
  cases lognormal with
  | false =>
    change _ = normalSum logScale constant (y.zip groupOf) mu sigma + -({} : Compensated ℝ).value
    rw [Compensated.value_empty, neg_zero, add_zero]
    rfl
  | true =>
    change _ = normalSum logScale constant ((y.map log).zip groupOf) mu sigma +
      -((y.map log).foldl Compensated.add {}).value
    rw [Compensated.value_foldl_add, Compensated.value_empty, zero_add, densitySum, normalSum]
    induction y generalizing groupOf with
    | nil => simp
    | cons v y ih =>
      cases groupOf with
      | nil => cases hlen
      | cons g groupOf =>
        have hrest := ih (Nat.succ.inj hlen)
        simp only [List.map_cons, List.zip_cons_cons, List.sum_cons]
        rw [hrest, densityTerm, if_pos rfl]
        ring

/-! ## Partials of the sum -/

theorem hasDerivAt_sum_map {β : Type*} {f : β → ℝ → ℝ} {f' : β → ℝ} {x : ℝ} {l : List β}
    (h : ∀ b ∈ l, HasDerivAt (f b) (f' b) x) :
    HasDerivAt (fun x => (l.map fun b => f b x).sum) (l.map f').sum x := by
  induction l with
  | nil => exact hasDerivAt_const x 0
  | cons b l ih =>
    simp only [List.map_cons, List.sum_cons]
    exact (h b (List.mem_cons_self ..)).add (ih fun b' hb' => h b' (List.mem_cons_of_mem _ hb'))

theorem Desc.at_set (d : Desc ℝ) (k : ℕ) (x : ℝ) (g : ℕ) :
    (d.set k x).at_ g = if d.slot g = k then x else d.at_ g :=
  Function.update_apply ..

theorem hasDerivAt_normalSum_location (logScale constant : Bool) {obs : List (Observation ℝ)}
    (mu : Desc ℝ) {sigma : Desc ℝ} (hs : ∀ o ∈ obs, 0 < sigma.at_ o.2) (k : ℕ) :
    HasDerivAt (fun x => normalSum logScale constant obs (mu.set k x) sigma)
      (obs.map fun o =>
        if mu.slot o.2 = k then (o.1 - mu.at_ o.2) / sigma.at_ o.2 ^ 2 else 0).sum (mu.data k) := by
  apply hasDerivAt_sum_map
  intro o ho
  simp only [Desc.at_set]
  by_cases hk : mu.slot o.2 = k
  · simp only [if_pos hk]
    have hat : mu.at_ o.2 = mu.data k := congrArg mu.data hk
    rw [hat]
    exact hasDerivAt_normalTerm_location logScale constant o.1 (mu.data k) (hs o ho)
  · simp only [if_neg hk]
    exact hasDerivAt_const _ _

theorem hasDerivAt_normalSum_scale (constant : Bool) {obs : List (Observation ℝ)}
    (mu : Desc ℝ) {sigma : Desc ℝ} (hs : ∀ o ∈ obs, 0 < sigma.at_ o.2) (k : ℕ) :
    HasDerivAt (fun x => normalSum true constant obs mu (sigma.set k x))
      (obs.map fun o => if sigma.slot o.2 = k then
        (o.1 - mu.at_ o.2) ^ 2 / sigma.at_ o.2 ^ 3 - 1 / sigma.at_ o.2 else 0).sum
      (sigma.data k) := by
  apply hasDerivAt_sum_map
  intro o ho
  simp only [Desc.at_set]
  by_cases hk : sigma.slot o.2 = k
  · simp only [if_pos hk]
    have hat : sigma.at_ o.2 = sigma.data k := congrArg sigma.data hk
    rw [hat]
    exact hasDerivAt_normalTerm_scale constant o.1 (mu.at_ o.2) (hat ▸ hs o ho)
  · simp only [if_neg hk]
    exact hasDerivAt_const _ _

end

end Stanli.Collapse
