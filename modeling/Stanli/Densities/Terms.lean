import Mathlib.Analysis.Calculus.Deriv.Comp
import Mathlib.Analysis.Calculus.Deriv.Inv
import Mathlib.Analysis.Calculus.Deriv.Pow
import Mathlib.Analysis.SpecialFunctions.Log.Deriv
import Mathlib.Tactic.IntervalCases
import Mathlib.Topology.Algebra.Module.ModuleTopology
import Stanli.Densities.Fused

/-!
# The log densities

What the kernels are for: the log density of one observation (`FusedDensity.term`) and its partial
derivatives (`FusedDensity.dTerm`, `hasDerivAt_term`), for each of the six densities.  The elementary
functions have their usual derivatives and are arbitrary otherwise (`Elementary.Lawful`).
-/

namespace Stanli.Densities

open Function

noncomputable section

/-- The derivatives of the elementary functions. -/
structure Elementary.Lawful (F : Elementary ℝ) : Prop where
  log : ∀ x, 0 < x → HasDerivAt F.log x⁻¹ x
  log1p : ∀ x, -1 < x → HasDerivAt F.log1p (1 + x)⁻¹ x
  log1m : ∀ x, x < 1 → HasDerivAt F.log1m (-(1 - x)⁻¹) x
  lgamma : ∀ x, 0 < x → HasDerivAt F.lgamma (F.digamma x) x

variable (F : Elementary ℝ)

/-- The log density of a normal observation. -/
def normalTerm (y mu sigma : ℝ) : ℝ :=
  -(1 / 2) * ((y - mu) / sigma) ^ 2 + F.negLogSqrtTwoPi - F.log sigma

/-- The log density of a Cauchy observation. -/
def cauchyTerm (y mu sigma : ℝ) : ℝ :=
  -F.log1p (((y - mu) / sigma) ^ 2) - F.logPi - F.log sigma

/-- The squared distance from the location, over the scale and the degrees of freedom. -/
def studentTDistance (y nu mu sigma : ℝ) : ℝ := ((y - mu) / sigma) ^ 2 / nu

/-- The log density of an observation of Student's t. -/
def studentTTerm (y nu mu sigma : ℝ) : ℝ :=
  F.lgamma ((nu + 1) / 2) - F.lgamma (nu / 2) - 1 / 2 * F.log nu - F.logSqrtPi - F.log sigma -
    (nu + 1) / 2 * F.log1p (studentTDistance y nu mu sigma)

/-- The log density of a lognormal observation. -/
def lognormalTerm (y mu sigma : ℝ) : ℝ :=
  F.negLogSqrtTwoPi - F.log sigma - F.log y - 1 / 2 * ((F.log y - mu) / sigma) ^ 2

/-- The log density of a beta observation. -/
def betaTerm (y alpha beta : ℝ) : ℝ :=
  F.lgamma (alpha + beta) - F.lgamma alpha - F.lgamma beta + (alpha - 1) * F.log y +
    (beta - 1) * F.log1m y

/-- The log density of a gamma observation. -/
def gammaTerm (y alpha beta : ℝ) : ℝ :=
  alpha * F.log beta - F.lgamma alpha + (alpha - 1) * F.log y - beta * y

namespace FusedDensity

/-- The values an argument may have. -/
def support : FusedDensity → ℕ → ℝ → Prop
  | normal, 2, x => 0 < x
  | cauchy, 2, x => 0 < x
  | studentT, 1, x => 0 < x
  | studentT, 3, x => 0 < x
  | lognormal, 0, x => 0 < x
  | lognormal, 2, x => 0 < x
  | beta, 0, x => 0 < x ∧ x < 1
  | beta, 1, x => 0 < x
  | beta, 2, x => 0 < x
  | gamma, 0, x => 0 < x
  | gamma, 1, x => 0 < x
  | gamma, 2, x => 0 < x
  | _, _, _ => True

/-- The log density of one observation, of which `a` are the arguments. -/
def term : FusedDensity → (ℕ → ℝ) → ℝ
  | normal, a => normalTerm F (a 0) (a 1) (a 2)
  | cauchy, a => cauchyTerm F (a 0) (a 1) (a 2)
  | studentT, a => studentTTerm F (a 0) (a 1) (a 2) (a 3)
  | lognormal, a => lognormalTerm F (a 0) (a 1) (a 2)
  | beta, a => betaTerm F (a 0) (a 1) (a 2)
  | gamma, a => gammaTerm F (a 0) (a 1) (a 2)

end FusedDensity

/-! ## Partials -/

/-- How the quadratic form of Student's t depends on the distance. -/
def studentTWeight (nu z : ℝ) : ℝ := (nu + 1) * z / (1 + z) - 1

def normalPartial (y mu sigma : ℝ) : ℕ → ℝ
  | 0 => -((y - mu) / sigma ^ 2)
  | 1 => (y - mu) / sigma ^ 2
  | 2 => (y - mu) ^ 2 / sigma ^ 3 - 1 / sigma
  | _ => 0

def cauchyPartial (y mu sigma : ℝ) : ℕ → ℝ
  | 0 => -(2 * (y - mu) / (sigma ^ 2 + (y - mu) ^ 2))
  | 1 => 2 * (y - mu) / (sigma ^ 2 + (y - mu) ^ 2)
  | 2 => ((y - mu) ^ 2 - sigma ^ 2) / sigma / (sigma ^ 2 + (y - mu) ^ 2)
  | _ => 0

def studentTPartial (y nu mu sigma : ℝ) : ℕ → ℝ
  | 0 => -((nu + 1) * (y - mu) / ((1 + studentTDistance y nu mu sigma) * sigma ^ 2 * nu))
  | 1 =>
    1 / 2 * (F.digamma ((nu + 1) / 2) - F.digamma (nu / 2) -
      F.log1p (studentTDistance y nu mu sigma) +
      studentTWeight nu (studentTDistance y nu mu sigma) / nu)
  | 2 => (nu + 1) * (y - mu) / ((1 + studentTDistance y nu mu sigma) * sigma ^ 2 * nu)
  | 3 => studentTWeight nu (studentTDistance y nu mu sigma) / sigma
  | _ => 0

def lognormalPartial (y mu sigma : ℝ) : ℕ → ℝ
  | 0 => -((1 + (F.log y - mu) / sigma ^ 2) / y)
  | 1 => (F.log y - mu) / sigma ^ 2
  | 2 => ((F.log y - mu) ^ 2 / sigma ^ 2 - 1) / sigma
  | _ => 0

def betaPartial (y alpha beta : ℝ) : ℕ → ℝ
  | 0 => (alpha - 1) / y + (beta - 1) / (y - 1)
  | 1 => F.log y + F.digamma (alpha + beta) - F.digamma alpha
  | 2 => F.log1m y + F.digamma (alpha + beta) - F.digamma beta
  | _ => 0

def gammaPartial (y alpha beta : ℝ) : ℕ → ℝ
  | 0 => (alpha - 1) / y - beta
  | 1 => F.log beta + F.log y - F.digamma alpha
  | 2 => alpha / beta - y
  | _ => 0

/-- The partial derivative of the log density by an argument. -/
def FusedDensity.dTerm : FusedDensity → ℕ → (ℕ → ℝ) → ℝ
  | normal, k, a => normalPartial (a 0) (a 1) (a 2) k
  | cauchy, k, a => cauchyPartial (a 0) (a 1) (a 2) k
  | studentT, k, a => studentTPartial F (a 0) (a 1) (a 2) (a 3) k
  | lognormal, k, a => lognormalPartial F (a 0) (a 1) (a 2) k
  | beta, k, a => betaPartial F (a 0) (a 1) (a 2) k
  | gamma, k, a => gammaPartial F (a 0) (a 1) (a 2) k

section Derivatives

variable {F} (hF : F.Lawful) {y mu sigma nu alpha beta : ℝ}

/-- The square of a scaled difference, by each of the three. -/
lemma hasDerivAt_scaled_sq_left (y mu : ℝ) (hs : 0 < sigma) :
    HasDerivAt (fun x => ((x - mu) / sigma) ^ 2) (2 * (y - mu) / sigma ^ 2) y := by
  have h := (((hasDerivAt_id y).sub_const mu).div_const sigma).pow 2
  apply h.congr_deriv
  have hs' := hs.ne'
  simp only [id, Nat.cast_ofNat, Nat.add_one_sub_one, pow_one]
  field_simp

lemma hasDerivAt_scaled_sq_right (y mu : ℝ) (hs : 0 < sigma) :
    HasDerivAt (fun x => ((y - x) / sigma) ^ 2) (-(2 * (y - mu) / sigma ^ 2)) mu := by
  have h := (((hasDerivAt_id mu).const_sub y).div_const sigma).pow 2
  apply h.congr_deriv
  have hs' := hs.ne'
  simp only [id, Nat.cast_ofNat, Nat.add_one_sub_one, pow_one]
  field_simp

lemma hasDerivAt_scaled_sq_scale (y mu : ℝ) (hs : 0 < sigma) :
    HasDerivAt (fun x => ((y - mu) / x) ^ 2) (-(2 * (y - mu) ^ 2 / sigma ^ 3)) sigma := by
  have hs' := hs.ne'
  have h := (((hasDerivAt_const sigma (y - mu)).div (hasDerivAt_id sigma) hs')).pow 2
  apply h.congr_deriv
  simp only [id, Nat.cast_ofNat, Nat.add_one_sub_one, pow_one, Pi.div_apply]
  field_simp
  ring

lemma hasDerivAt_normalTerm_variate (hs : 0 < sigma) :
    HasDerivAt (fun x => normalTerm F x mu sigma) (normalPartial y mu sigma 0) y := by
  have h := (((hasDerivAt_scaled_sq_left y mu hs).const_mul (-(1 / 2))).add_const
    F.negLogSqrtTwoPi).sub_const (F.log sigma)
  apply h.congr_deriv
  rw [normalPartial]
  ring

lemma hasDerivAt_normalTerm_location (hs : 0 < sigma) :
    HasDerivAt (fun x => normalTerm F y x sigma) (normalPartial y mu sigma 1) mu := by
  have h := (((hasDerivAt_scaled_sq_right y mu hs).const_mul (-(1 / 2))).add_const
    F.negLogSqrtTwoPi).sub_const (F.log sigma)
  apply h.congr_deriv
  rw [normalPartial]
  ring

include hF in
lemma hasDerivAt_normalTerm_scale (hs : 0 < sigma) :
    HasDerivAt (fun x => normalTerm F y mu x) (normalPartial y mu sigma 2) sigma := by
  have h := (((hasDerivAt_scaled_sq_scale y mu hs).const_mul (-(1 / 2))).add_const
    F.negLogSqrtTwoPi).sub (hF.log sigma hs)
  apply h.congr_deriv
  rw [normalPartial]
  ring

/-- The logarithm of one plus a square, by the argument of the square. -/
lemma hasDerivAt_log1p_sq {f : ℝ → ℝ} {f' x : ℝ} (hF : F.Lawful)
    (hf : HasDerivAt (fun x => f x ^ 2) f' x) :
    HasDerivAt (fun x => F.log1p (f x ^ 2)) ((1 + f x ^ 2)⁻¹ * f') x := by
  have hpos : -1 < f x ^ 2 := by
    have := sq_nonneg (f x)
    linarith
  exact (hF.log1p _ hpos).comp x hf

include hF in
lemma hasDerivAt_cauchyTerm_variate (hs : 0 < sigma) :
    HasDerivAt (fun x => cauchyTerm F x mu sigma) (cauchyPartial y mu sigma 0) y := by
  have h := ((hasDerivAt_log1p_sq hF (hasDerivAt_scaled_sq_left y mu hs)).neg.sub_const
    F.logPi).sub_const (F.log sigma)
  apply h.congr_deriv
  have hpos : sigma ^ 2 + (y - mu) ^ 2 ≠ 0 := by positivity
  have hs' := hs.ne'
  rw [cauchyPartial]
  field_simp

include hF in
lemma hasDerivAt_cauchyTerm_location (hs : 0 < sigma) :
    HasDerivAt (fun x => cauchyTerm F y x sigma) (cauchyPartial y mu sigma 1) mu := by
  have h := ((hasDerivAt_log1p_sq hF
    (hasDerivAt_scaled_sq_right y mu hs)).neg.sub_const F.logPi).sub_const (F.log sigma)
  apply h.congr_deriv
  have hpos : sigma ^ 2 + (y - mu) ^ 2 ≠ 0 := by positivity
  have hs' := hs.ne'
  rw [cauchyPartial]
  field_simp

include hF in
lemma hasDerivAt_cauchyTerm_scale (hs : 0 < sigma) :
    HasDerivAt (fun x => cauchyTerm F y mu x) (cauchyPartial y mu sigma 2) sigma := by
  have h := ((hasDerivAt_log1p_sq hF
    (hasDerivAt_scaled_sq_scale y mu hs)).neg.sub_const F.logPi).sub (hF.log sigma hs)
  apply h.congr_deriv
  have hpos : sigma ^ 2 + (y - mu) ^ 2 ≠ 0 := by positivity
  have hs' := hs.ne'
  rw [cauchyPartial]
  field_simp
  ring

lemma studentTDistance_nonneg (y mu sigma : ℝ) (hn : 0 < nu) : 0 ≤ studentTDistance y nu mu sigma :=
  div_nonneg (sq_nonneg _) hn.le

/-- The logarithm of one plus the distance, along a curve. -/
lemma hasDerivAt_log1p_distance {d : ℝ → ℝ} {d' x : ℝ} (hF : F.Lawful) (hd : HasDerivAt d d' x)
    (hpos : 0 ≤ d x) : HasDerivAt (fun x => F.log1p (d x)) ((1 + d x)⁻¹ * d') x :=
  (hF.log1p _ (by linarith)).comp x hd

/-- A location or a variate of Student's t acts through the distance alone. -/
lemma hasDerivAt_studentTTerm_of_distance {f : ℝ → ℝ} {f' x : ℝ} (hF : F.Lawful)
    (nu c : ℝ) (hf : HasDerivAt f f' x) (hpos : 0 ≤ f x) :
    HasDerivAt (fun x => c - (nu + 1) / 2 * F.log1p (f x))
      (-((nu + 1) / 2 * ((1 + f x)⁻¹ * f'))) x :=
  ((hasDerivAt_log1p_distance hF hf hpos).const_mul ((nu + 1) / 2)).const_sub c

include hF in
lemma hasDerivAt_studentTTerm_variate (hn : 0 < nu) (hs : 0 < sigma) :
    HasDerivAt (fun x => studentTTerm F x nu mu sigma) (studentTPartial F y nu mu sigma 0) y := by
  have hd : HasDerivAt (fun x => studentTDistance x nu mu sigma) (2 * (y - mu) / sigma ^ 2 / nu) y :=
    (hasDerivAt_scaled_sq_left y mu hs).div_const nu
  have hpos := studentTDistance_nonneg y mu sigma hn
  have h := hasDerivAt_studentTTerm_of_distance hF nu (F.lgamma ((nu + 1) / 2) - F.lgamma (nu / 2) -
    1 / 2 * F.log nu - F.logSqrtPi - F.log sigma) hd hpos
  apply h.congr_deriv
  rw [studentTPartial]
  field_simp

include hF in
lemma hasDerivAt_studentTTerm_location (hn : 0 < nu) (hs : 0 < sigma) :
    HasDerivAt (fun x => studentTTerm F y nu x sigma) (studentTPartial F y nu mu sigma 2) mu := by
  have hd : HasDerivAt (fun x => studentTDistance y nu x sigma)
      (-(2 * (y - mu) / sigma ^ 2) / nu) mu :=
    (hasDerivAt_scaled_sq_right y mu hs).div_const nu
  have hpos := studentTDistance_nonneg y mu sigma hn
  have h := hasDerivAt_studentTTerm_of_distance hF nu (F.lgamma ((nu + 1) / 2) - F.lgamma (nu / 2) -
    1 / 2 * F.log nu - F.logSqrtPi - F.log sigma) hd hpos
  apply h.congr_deriv
  rw [studentTPartial]
  field_simp

include hF in
lemma hasDerivAt_studentTTerm_scale (hn : 0 < nu) (hs : 0 < sigma) :
    HasDerivAt (fun x => studentTTerm F y nu mu x) (studentTPartial F y nu mu sigma 3) sigma := by
  have hs' := hs.ne'
  have hd : HasDerivAt (fun x => studentTDistance y nu mu x)
      (-(2 * (y - mu) ^ 2 / sigma ^ 3) / nu) sigma :=
    (hasDerivAt_scaled_sq_scale y mu hs).div_const nu
  have hpos := studentTDistance_nonneg y mu sigma hn
  have hlog := (hasDerivAt_log1p_distance hF hd hpos).const_mul ((nu + 1) / 2)
  have h := ((hF.log sigma hs).const_sub (F.lgamma ((nu + 1) / 2) - F.lgamma (nu / 2) -
    1 / 2 * F.log nu - F.logSqrtPi)).sub hlog
  apply h.congr_deriv
  have hz : 1 + studentTDistance y nu mu sigma ≠ 0 := by linarith
  have hsq : (y - mu) ^ 2 = studentTDistance y nu mu sigma * nu * sigma ^ 2 := by
    rw [studentTDistance]
    field_simp
  rw [studentTPartial, studentTWeight, hsq]
  field_simp
  ring

include hF in
lemma hasDerivAt_studentTTerm_degrees (hn : 0 < nu) :
    HasDerivAt (fun x => studentTTerm F y x mu sigma) (studentTPartial F y nu mu sigma 1) nu := by
  have hn' := hn.ne'
  have hd : HasDerivAt (fun x => studentTDistance y x mu sigma)
      (-(((y - mu) / sigma) ^ 2 / nu ^ 2)) nu := by
    have h := (hasDerivAt_const nu (((y - mu) / sigma) ^ 2)).div (hasDerivAt_id nu) hn'
    apply h.congr_deriv
    simp only [id]
    ring
  have hpos := studentTDistance_nonneg y mu sigma hn
  have hhalf : HasDerivAt (fun x : ℝ => x / 2) (1 / 2) nu := (hasDerivAt_id nu).div_const 2
  have hnext : HasDerivAt (fun x : ℝ => (x + 1) / 2) (1 / 2) nu :=
    ((hasDerivAt_id nu).add_const 1).div_const 2
  have hupper := (hF.lgamma ((nu + 1) / 2) (by linarith)).comp nu hnext
  have hlower := (hF.lgamma (nu / 2) (by linarith)).comp nu hhalf
  have hconst := (((hupper.sub hlower).sub ((hF.log nu hn).const_mul (1 / 2))).sub_const
    F.logSqrtPi).sub_const (F.log sigma)
  have h := hconst.sub (hnext.mul (hasDerivAt_log1p_distance hF hd hpos))
  apply h.congr_deriv
  have hz : 1 + studentTDistance y nu mu sigma ≠ 0 := by linarith
  have hsq : ((y - mu) / sigma) ^ 2 = studentTDistance y nu mu sigma * nu := by
    rw [studentTDistance]
    field_simp
  rw [studentTPartial, studentTWeight, hsq]
  field_simp
  ring

include hF in
lemma hasDerivAt_lognormalTerm_variate (hy : 0 < y) (hs : 0 < sigma) :
    HasDerivAt (fun x => lognormalTerm F x mu sigma) (lognormalPartial F y mu sigma 0) y := by
  have hy' := hy.ne'
  have hlog := hF.log y hy
  have hsq := (hasDerivAt_scaled_sq_left (F.log y) mu hs).comp y hlog
  have h := (hlog.const_sub (F.negLogSqrtTwoPi - F.log sigma)).sub (hsq.const_mul (1 / 2))
  apply h.congr_deriv
  rw [lognormalPartial]
  field_simp
  ring

lemma hasDerivAt_lognormalTerm_location (hs : 0 < sigma) :
    HasDerivAt (fun x => lognormalTerm F y x sigma) (lognormalPartial F y mu sigma 1) mu := by
  have h := ((hasDerivAt_scaled_sq_right (F.log y) mu hs).const_mul (1 / 2)).const_sub
    (F.negLogSqrtTwoPi - F.log sigma - F.log y)
  apply h.congr_deriv
  rw [lognormalPartial]
  ring

include hF in
lemma hasDerivAt_lognormalTerm_scale (hs : 0 < sigma) :
    HasDerivAt (fun x => lognormalTerm F y mu x) (lognormalPartial F y mu sigma 2) sigma := by
  have hs' := hs.ne'
  have h := (((hF.log sigma hs).const_sub F.negLogSqrtTwoPi).sub_const (F.log y)).sub
    ((hasDerivAt_scaled_sq_scale (F.log y) mu hs).const_mul (1 / 2))
  apply h.congr_deriv
  rw [lognormalPartial]
  field_simp
  ring

include hF in
lemma hasDerivAt_betaTerm_variate (hy : 0 < y) (hy1 : y < 1) :
    HasDerivAt (fun x => betaTerm F x alpha beta) (betaPartial F y alpha beta 0) y := by
  have h := (((hF.log y hy).const_mul (alpha - 1)).const_add
    (F.lgamma (alpha + beta) - F.lgamma alpha - F.lgamma beta)).add
      ((hF.log1m y hy1).const_mul (beta - 1))
  apply h.congr_deriv
  have hneg : y - 1 = -(1 - y) := by ring
  rw [betaPartial, hneg, div_neg, mul_neg, div_eq_mul_inv, div_eq_mul_inv]

include hF in
lemma hasDerivAt_betaTerm_first (ha : 0 < alpha) (hb : 0 < beta) :
    HasDerivAt (fun x => betaTerm F y x beta) (betaPartial F y alpha beta 1) alpha := by
  have hsum := (hF.lgamma (alpha + beta) (add_pos ha hb)).comp alpha
    ((hasDerivAt_id alpha).add_const beta)
  have h := (((hsum.sub (hF.lgamma alpha ha)).sub_const (F.lgamma beta)).add
    (((hasDerivAt_id alpha).sub_const 1).mul_const (F.log y))).add_const ((beta - 1) * F.log1m y)
  apply h.congr_deriv
  rw [betaPartial]
  ring

include hF in
lemma hasDerivAt_betaTerm_second (ha : 0 < alpha) (hb : 0 < beta) :
    HasDerivAt (fun x => betaTerm F y alpha x) (betaPartial F y alpha beta 2) beta := by
  have hsum := (hF.lgamma (alpha + beta) (add_pos ha hb)).comp beta
    ((hasDerivAt_id beta).const_add alpha)
  have h := (((hsum.sub_const (F.lgamma alpha)).sub (hF.lgamma beta hb)).add_const
    ((alpha - 1) * F.log y)).add (((hasDerivAt_id beta).sub_const 1).mul_const (F.log1m y))
  apply h.congr_deriv
  rw [betaPartial]
  ring

include hF in
lemma hasDerivAt_gammaTerm_variate (hy : 0 < y) :
    HasDerivAt (fun x => gammaTerm F x alpha beta) (gammaPartial F y alpha beta 0) y := by
  have h := (((hF.log y hy).const_mul (alpha - 1)).const_add
    (alpha * F.log beta - F.lgamma alpha)).sub ((hasDerivAt_id y).const_mul beta)
  apply h.congr_deriv
  rw [gammaPartial, mul_one, div_eq_mul_inv]

include hF in
lemma hasDerivAt_gammaTerm_shape (ha : 0 < alpha) :
    HasDerivAt (fun x => gammaTerm F y x beta) (gammaPartial F y alpha beta 1) alpha := by
  have h := ((((hasDerivAt_id alpha).mul_const (F.log beta)).sub (hF.lgamma alpha ha)).add
    (((hasDerivAt_id alpha).sub_const 1).mul_const (F.log y))).sub_const (beta * y)
  apply h.congr_deriv
  rw [gammaPartial]
  ring

include hF in
lemma hasDerivAt_gammaTerm_rate (hb : 0 < beta) :
    HasDerivAt (fun x => gammaTerm F y alpha x) (gammaPartial F y alpha beta 2) beta := by
  have h := ((((hF.log beta hb).const_mul alpha).sub_const (F.lgamma alpha)).add_const
    ((alpha - 1) * F.log y)).sub ((hasDerivAt_id beta).mul_const y)
  apply h.congr_deriv
  rw [gammaPartial]
  ring

/-- In the support, the log density has these partial derivatives. -/
theorem FusedDensity.hasDerivAt_term (hF : F.Lawful) (d : FusedDensity) {a : ℕ → ℝ}
    (ha : ∀ k < d.arity, d.support k (a k)) {k : ℕ} (hk : k < d.arity) :
    HasDerivAt (fun x => d.term F (update a k x)) (d.dTerm F k a) (a k) := by
  cases d with
  | normal =>
    have hs : 0 < a 2 := ha 2 (by decide)
    change k < 3 at hk
    interval_cases k
    · exact hasDerivAt_normalTerm_variate hs
    · exact hasDerivAt_normalTerm_location hs
    · exact hasDerivAt_normalTerm_scale hF hs
  | cauchy =>
    have hs : 0 < a 2 := ha 2 (by decide)
    change k < 3 at hk
    interval_cases k
    · exact hasDerivAt_cauchyTerm_variate hF hs
    · exact hasDerivAt_cauchyTerm_location hF hs
    · exact hasDerivAt_cauchyTerm_scale hF hs
  | studentT =>
    have hn : 0 < a 1 := ha 1 (by decide)
    have hs : 0 < a 3 := ha 3 (by decide)
    change k < 4 at hk
    interval_cases k
    · exact hasDerivAt_studentTTerm_variate hF hn hs
    · exact hasDerivAt_studentTTerm_degrees hF hn
    · exact hasDerivAt_studentTTerm_location hF hn hs
    · exact hasDerivAt_studentTTerm_scale hF hn hs
  | lognormal =>
    have hy : 0 < a 0 := ha 0 (by decide)
    have hs : 0 < a 2 := ha 2 (by decide)
    change k < 3 at hk
    interval_cases k
    · exact hasDerivAt_lognormalTerm_variate hF hy hs
    · exact hasDerivAt_lognormalTerm_location hs
    · exact hasDerivAt_lognormalTerm_scale hF hs
  | beta =>
    obtain ⟨hy, hy1⟩ : 0 < a 0 ∧ a 0 < 1 := ha 0 (by decide)
    have hα : 0 < a 1 := ha 1 (by decide)
    have hβ : 0 < a 2 := ha 2 (by decide)
    change k < 3 at hk
    interval_cases k
    · exact hasDerivAt_betaTerm_variate hF hy hy1
    · exact hasDerivAt_betaTerm_first hF hα hβ
    · exact hasDerivAt_betaTerm_second hF hα hβ
  | gamma =>
    have hy : 0 < a 0 := ha 0 (by decide)
    have hα : 0 < a 1 := ha 1 (by decide)
    have hβ : 0 < a 2 := ha 2 (by decide)
    change k < 3 at hk
    interval_cases k
    · exact hasDerivAt_gammaTerm_variate hF hy
    · exact hasDerivAt_gammaTerm_shape hF hα
    · exact hasDerivAt_gammaTerm_rate hF hβ

end Derivatives

/-! ## What a call keeps -/

/-- A summand that is kept. -/
def keep (b : Bool) (x : ℝ) : ℝ := if b then x else 0

@[simp] lemma keep_true (x : ℝ) : keep true x = x := rfl

@[simp] lemma keep_false (x : ℝ) : keep false x = 0 := rfl

/-- What is lost where a summand may not be kept. -/
def leftOut (b : Bool) (x : ℝ) : ℝ := x - keep b x

lemma leftOut_congr {b : Bool} {x x' : ℝ} (h : b = false → x = x') : leftOut b x = leftOut b x' := by
  cases b with
  | false => rw [h rfl]
  | true => rw [leftOut, leftOut, keep_true, keep_true, sub_self, sub_self]

def normalKept (full : Bool) (mask : ℕ) (y mu sigma : ℝ) : ℝ :=
  -(1 / 2) * ((y - mu) / sigma) ^ 2 + keep full F.negLogSqrtTwoPi -
    keep (full || mask.testBit 2) (F.log sigma)

def cauchyKept (full : Bool) (mask : ℕ) (y mu sigma : ℝ) : ℝ :=
  -F.log1p (((y - mu) / sigma) ^ 2) - keep full F.logPi - keep (full || mask.testBit 2) (F.log sigma)

def studentTKept (full : Bool) (mask : ℕ) (y nu mu sigma : ℝ) : ℝ :=
  keep (full || mask.testBit 1)
      (F.lgamma ((nu + 1) / 2) - F.lgamma (nu / 2) - 1 / 2 * F.log nu) -
    keep full F.logSqrtPi - keep (full || mask.testBit 3) (F.log sigma) -
    (nu + 1) / 2 * F.log1p (studentTDistance y nu mu sigma)

/-- The constant stays, with propto also. -/
def lognormalKept (full : Bool) (mask : ℕ) (y mu sigma : ℝ) : ℝ :=
  F.negLogSqrtTwoPi - keep (full || mask.testBit 2) (F.log sigma) -
    keep (full || mask.testBit 0) (F.log y) - 1 / 2 * ((F.log y - mu) / sigma) ^ 2

def betaKept (full : Bool) (mask : ℕ) (y alpha beta : ℝ) : ℝ :=
  keep (full || mask.testBit 1 || mask.testBit 2) (F.lgamma (alpha + beta)) -
    keep (full || mask.testBit 1) (F.lgamma alpha) - keep (full || mask.testBit 2) (F.lgamma beta) +
    keep (full || mask.testBit 0 || mask.testBit 1) ((alpha - 1) * F.log y) +
    keep (full || mask.testBit 0 || mask.testBit 2) ((beta - 1) * F.log1m y)

def gammaKept (full : Bool) (mask : ℕ) (y alpha beta : ℝ) : ℝ :=
  keep (full || mask.testBit 1 || mask.testBit 2) (alpha * F.log beta) -
    keep (full || mask.testBit 1) (F.lgamma alpha) +
    keep (full || mask.testBit 0 || mask.testBit 1) ((alpha - 1) * F.log y) -
    keep (full || mask.testBit 0 || mask.testBit 2) (beta * y)

namespace FusedDensity

/-- What a call keeps of the log density, but for one with propto and without active arguments. -/
def keptTerms (d : FusedDensity) (mask : ℕ) (propto : Bool) (a : ℕ → ℝ) : ℝ :=
  match d with
  | normal => normalKept F (!propto) mask (a 0) (a 1) (a 2)
  | cauchy => cauchyKept F (!propto) mask (a 0) (a 1) (a 2)
  | studentT => studentTKept F (!propto) mask (a 0) (a 1) (a 2) (a 3)
  | lognormal => lognormalKept F (!propto) mask (a 0) (a 1) (a 2)
  | beta => betaKept F (!propto) mask (a 0) (a 1) (a 2)
  | gamma => gammaKept F (!propto) mask (a 0) (a 1) (a 2)

/-- What a call keeps of the log density of one observation. -/
def kept (d : FusedDensity) (mask : ℕ) (propto : Bool) (a : ℕ → ℝ) : ℝ :=
  if propto = true ∧ mask = 0 then 0 else d.keptTerms F mask propto a

/-- What a call leaves out. -/
def dropped (d : FusedDensity) (mask : ℕ) (propto : Bool) (a : ℕ → ℝ) : ℝ :=
  d.term F a - d.kept F mask propto a

lemma term_sub_dropped (d : FusedDensity) (mask : ℕ) (propto : Bool) (a : ℕ → ℝ) :
    d.term F a - d.dropped F mask propto a = d.kept F mask propto a := sub_sub_cancel ..

/-- Without propto nothing is left out. -/
theorem dropped_full (d : FusedDensity) (mask : ℕ) (a : ℕ → ℝ) : d.dropped F mask false a = 0 := by
  rw [dropped, kept, if_neg (by simp), sub_eq_zero]
  cases d with
  | normal => rfl
  | cauchy => rfl
  | studentT =>
    simp [term, keptTerms, studentTTerm, studentTKept, keep_true]
  | lognormal => rfl
  | beta => rfl
  | gamma => rfl

/-- The log density depends on the arguments alone. -/
lemma term_congr (d : FusedDensity) {a a' : ℕ → ℝ} (h : ∀ k < d.arity, a k = a' k) :
    d.term F a = d.term F a' := by
  cases d with
  | studentT => rw [term, term, h 0 (by decide), h 1 (by decide), h 2 (by decide), h 3 (by decide)]
  | _ => rw [term, term, h 0 (by decide), h 1 (by decide), h 2 (by decide)]

/-- With propto the summands left out mention no active argument. -/
lemma leftOut_terms_congr (d : FusedDensity) (mask : ℕ) {a a' : ℕ → ℝ}
    (h : ∀ k < d.arity, mask.testBit k = false → a k = a' k) :
    d.term F a - d.keptTerms F mask true a = d.term F a' - d.keptTerms F mask true a' := by
  have one : ∀ k < d.arity, ∀ f : ℝ → ℝ,
      leftOut (mask.testBit k) (f (a k)) = leftOut (mask.testBit k) (f (a' k)) := by
    intro k hk f
    exact leftOut_congr fun hb => by rw [h k hk hb]
  have two : ∀ k < d.arity, ∀ l < d.arity, ∀ f : ℝ → ℝ → ℝ,
      leftOut (mask.testBit k || mask.testBit l) (f (a k) (a l)) =
        leftOut (mask.testBit k || mask.testBit l) (f (a' k) (a' l)) := by
    intro k hk l hl f
    refine leftOut_congr fun hb => ?_
    obtain ⟨hbk, hbl⟩ := Bool.or_eq_false_iff.1 hb
    rw [h k hk hbk, h l hl hbl]
  cases d with
  | normal =>
    have hdrop : ∀ b, normal.term F b - normal.keptTerms F mask true b =
        F.negLogSqrtTwoPi - leftOut (mask.testBit 2) (F.log (b 2)) := by
      intro b
      simp only [term, keptTerms, normalTerm, normalKept, leftOut, Bool.not_true, Bool.false_or,
        keep_false]
      ring
    rw [hdrop, hdrop, one 2 (by decide) F.log]
  | cauchy =>
    have hdrop : ∀ b, cauchy.term F b - cauchy.keptTerms F mask true b =
        -F.logPi - leftOut (mask.testBit 2) (F.log (b 2)) := by
      intro b
      simp only [term, keptTerms, cauchyTerm, cauchyKept, leftOut, Bool.not_true, Bool.false_or,
        keep_false]
      ring
    rw [hdrop, hdrop, one 2 (by decide) F.log]
  | studentT =>
    have hdrop : ∀ b, studentT.term F b - studentT.keptTerms F mask true b =
        leftOut (mask.testBit 1)
            (F.lgamma ((b 1 + 1) / 2) - F.lgamma (b 1 / 2) - 1 / 2 * F.log (b 1)) -
          F.logSqrtPi - leftOut (mask.testBit 3) (F.log (b 3)) := by
      intro b
      simp only [term, keptTerms, studentTTerm, studentTKept, leftOut, Bool.not_true, Bool.false_or,
        keep_false]
      ring
    rw [hdrop, hdrop, one 3 (by decide) F.log,
      one 1 (by decide) fun nu => F.lgamma ((nu + 1) / 2) - F.lgamma (nu / 2) - 1 / 2 * F.log nu]
  | lognormal =>
    have hdrop : ∀ b, lognormal.term F b - lognormal.keptTerms F mask true b =
        -leftOut (mask.testBit 2) (F.log (b 2)) - leftOut (mask.testBit 0) (F.log (b 0)) := by
      intro b
      simp only [term, keptTerms, lognormalTerm, lognormalKept, leftOut, Bool.not_true, Bool.false_or]
      ring
    rw [hdrop, hdrop, one 2 (by decide) F.log, one 0 (by decide) F.log]
  | beta =>
    have hdrop : ∀ b, beta.term F b - beta.keptTerms F mask true b =
        leftOut (mask.testBit 1 || mask.testBit 2) (F.lgamma (b 1 + b 2)) -
          leftOut (mask.testBit 1) (F.lgamma (b 1)) - leftOut (mask.testBit 2) (F.lgamma (b 2)) +
          leftOut (mask.testBit 0 || mask.testBit 1) ((b 1 - 1) * F.log (b 0)) +
          leftOut (mask.testBit 0 || mask.testBit 2) ((b 2 - 1) * F.log1m (b 0)) := by
      intro b
      simp only [term, keptTerms, betaTerm, betaKept, leftOut, Bool.not_true, Bool.false_or]
      ring
    rw [hdrop, hdrop, one 1 (by decide) F.lgamma, one 2 (by decide) F.lgamma,
      two 1 (by decide) 2 (by decide) fun α β => F.lgamma (α + β),
      two 0 (by decide) 1 (by decide) fun y α => (α - 1) * F.log y,
      two 0 (by decide) 2 (by decide) fun y β => (β - 1) * F.log1m y]
  | gamma =>
    have hdrop : ∀ b, gamma.term F b - gamma.keptTerms F mask true b =
        leftOut (mask.testBit 1 || mask.testBit 2) (b 1 * F.log (b 2)) -
          leftOut (mask.testBit 1) (F.lgamma (b 1)) +
          leftOut (mask.testBit 0 || mask.testBit 1) ((b 1 - 1) * F.log (b 0)) -
          leftOut (mask.testBit 0 || mask.testBit 2) (b 2 * b 0) := by
      intro b
      simp only [term, keptTerms, gammaTerm, gammaKept, leftOut, Bool.not_true, Bool.false_or]
      ring
    rw [hdrop, hdrop, one 1 (by decide) F.lgamma,
      two 1 (by decide) 2 (by decide) fun α β => α * F.log β,
      two 0 (by decide) 1 (by decide) fun y α => (α - 1) * F.log y,
      two 0 (by decide) 2 (by decide) fun y β => β * y]

/-- What is left out depends on no active argument. -/
theorem dropped_congr (d : FusedDensity) (mask : ℕ) (propto : Bool) {a a' : ℕ → ℝ}
    (h : ∀ k < d.arity, mask.testBit k = false → a k = a' k) :
    d.dropped F mask propto a = d.dropped F mask propto a' := by
  cases propto with
  | false => rw [dropped_full, dropped_full]
  | true =>
    rw [dropped, dropped, kept, kept]
    by_cases hmask : mask = 0
    · rw [if_pos ⟨rfl, hmask⟩, if_pos ⟨rfl, hmask⟩, d.term_congr F fun k hk => h k hk ?_]
      rw [hmask, Nat.zero_testBit]
    · rw [if_neg (fun hc => hmask hc.2), if_neg (fun hc => hmask hc.2)]
      exact d.leftOut_terms_congr F mask h

end FusedDensity

end

end Stanli.Densities
