import Mathlib.Analysis.Calculus.Deriv.Add
import Mathlib.Analysis.Calculus.Deriv.Mul
import Mathlib.Analysis.SpecialFunctions.Log.Deriv
import Mathlib.Analysis.SpecialFunctions.Sigmoid
import Mathlib.Topology.Algebra.Module.ModuleTopology
import Stanli.Constrain.Elementwise

/-!
# The elementwise transforms

What the elementwise kernels are for: the transform of one element (`Elementwise.value`), the logarithm
of its derivative (`Elementwise.logSlope`), and the derivatives of a weighted sum of the two by the raw
value and by each argument (`Elementwise.term`, `hasDerivAt_objective`).  An infinite bound is no bound.
-/

namespace Stanli.Constrain

open Function Real

noncomputable section

/-- The elementary functions are those of analysis where the kernels call them. -/
structure Elementary.Lawful (F : Elementary ℝ) : Prop where
  exp : ∀ x, F.exp x = Real.exp x
  log : ∀ x, 0 < x → F.log x = Real.log x
  log1m : ∀ x, x < 1 → F.log1m x = Real.log (1 - x)
  log1pExp : ∀ x, F.log1pExp x = Real.log (1 + Real.exp x)
  invLogit : ∀ x, F.invLogit x = sigmoid x
  tanh : ∀ x, F.tanh x = Real.tanh x
  cosh : ∀ x, F.cosh x = Real.cosh x
  sqrt : ∀ x, 0 ≤ x → F.sqrt x = √x

/-! ## The logistic function -/

lemma exp_div_one_add_exp (x : ℝ) : exp x / (1 + exp x) = sigmoid x := by
  have h : exp x * exp (-x) = 1 := by rw [← exp_add, add_neg_cancel, exp_zero]
  have hpos : 0 < 1 + exp x := by positivity
  have hpos' : 0 < 1 + exp (-x) := by positivity
  rw [sigmoid_def, div_eq_iff hpos.ne', inv_mul_eq_div, eq_div_iff hpos'.ne']
  linear_combination h

lemma log_sigmoid_mul (x : ℝ) : log (sigmoid x * (1 - sigmoid x)) = -x - 2 * log (1 + exp (-x)) := by
  have hσ : log (sigmoid x) = -log (1 + exp (-x)) := by rw [sigmoid_def, log_inv]
  rw [← sigmoid_neg, ← sigmoid_mul_rexp_neg, log_mul (sigmoid_pos x).ne'
    (mul_pos (sigmoid_pos x) (exp_pos _)).ne', log_mul (sigmoid_pos x).ne' (exp_pos _).ne', log_exp, hσ]
  ring

/-- The form of the code, which never takes the exponential of a large number. -/
lemma log_sigmoid_abs (x : ℝ) :
    -|x| - 2 * log (1 + exp (-|x|)) = log (sigmoid x * (1 - sigmoid x)) := by
  rw [← log_sigmoid_mul]
  obtain h | h := abs_choice x
  · rw [h]
  · rw [h, sigmoid_neg, sub_sub_cancel, mul_comm]

lemma one_sub_sigmoid_pos (x : ℝ) : 0 < 1 - sigmoid x := sub_pos.2 (sigmoid_lt_one x)

lemma sigmoid_mul_pos (x : ℝ) : 0 < sigmoid x * (1 - sigmoid x) :=
  mul_pos (sigmoid_pos x) (one_sub_sigmoid_pos x)

/-! ## Bounds -/

/-- The transform to the numbers between two bounds. -/
def bounded : Extended ℝ → Extended ℝ → ℝ → ℝ
  | .infinite, .infinite, x => x
  | .infinite, .finite u, x => u - exp x
  | .finite l, .infinite, x => exp x + l
  | .finite l, .finite u, x => (u - l) * sigmoid x + l

/-- Its derivative. -/
def boundedSlope : Extended ℝ → Extended ℝ → ℝ → ℝ
  | .infinite, .infinite, _ => 1
  | .infinite, .finite _, x => -exp x
  | .finite _, .infinite, x => exp x
  | .finite l, .finite u, x => (u - l) * (sigmoid x * (1 - sigmoid x))

lemma hasDerivAt_bounded (lb ub : Extended ℝ) (x : ℝ) :
    HasDerivAt (bounded lb ub) (boundedSlope lb ub x) x := by
  cases lb with
  | infinite =>
    cases ub with
    | infinite => exact hasDerivAt_id x
    | finite u => exact (Real.hasDerivAt_exp x).const_sub u
  | finite l =>
    cases ub with
    | infinite => exact (Real.hasDerivAt_exp x).add_const l
    | finite u => exact ((hasDerivAt_sigmoid x).const_mul (u - l)).add_const l

/-- The logarithm of the derivative's absolute value. -/
def boundedLogSlope (lb ub : Extended ℝ) (x : ℝ) : ℝ := log |deriv (bounded lb ub) x|

lemma boundedLogSlope_eq (lb ub : Extended ℝ) (x : ℝ) :
    boundedLogSlope lb ub x = log (boundedSlope lb ub x) := by
  rw [boundedLogSlope, (hasDerivAt_bounded lb ub x).deriv, log_abs]

@[simp] lemma boundedLogSlope_infinite (x : ℝ) : boundedLogSlope .infinite .infinite x = 0 := by
  rw [boundedLogSlope_eq, boundedSlope, log_one]

@[simp] lemma boundedLogSlope_lower (l x : ℝ) : boundedLogSlope (.finite l) .infinite x = x := by
  rw [boundedLogSlope_eq, boundedSlope, log_exp]

@[simp] lemma boundedLogSlope_upper (u x : ℝ) : boundedLogSlope .infinite (.finite u) x = x := by
  rw [boundedLogSlope_eq, boundedSlope, log_neg_eq_log, log_exp]

lemma boundedLogSlope_both (l u x : ℝ) : boundedLogSlope (.finite l) (.finite u) x =
    log ((u - l) * (sigmoid x * (1 - sigmoid x))) := boundedLogSlope_eq ..

/-- The transform and the logarithm of its derivative, weighted. -/
def boundedObjective (s lp : ℝ) (lb ub : Extended ℝ) (x : ℝ) : ℝ :=
  s * bounded lb ub x + lp * boundedLogSlope lb ub x

/-- The derivative of the weighted sum by the raw value. -/
def rawTerm (s lp : ℝ) (lb ub : Extended ℝ) (x : ℝ) : ℝ :=
  match lb, ub with
  | .infinite, .infinite => s
  | .infinite, .finite _ => -s * exp x + lp
  | .finite _, .infinite => s * exp x + lp
  | .finite l, .finite u =>
    s * (u - l) * sigmoid x * (1 - sigmoid x) + lp * (1 - 2 * sigmoid x)

/-- The derivative by the lower bound, where there is one. -/
def lowerTerm (s lp : ℝ) (lb ub : Extended ℝ) (x : ℝ) : ℝ :=
  match lb, ub with
  | .infinite, _ => 0
  | .finite _, .infinite => s
  | .finite l, .finite u => s * (1 - sigmoid x) - 1 / (u - l) * lp

/-- The derivative by the upper bound, where there is one. -/
def upperTerm (s lp : ℝ) (lb ub : Extended ℝ) (x : ℝ) : ℝ :=
  match lb, ub with
  | _, .infinite => 0
  | .infinite, .finite _ => s
  | .finite l, .finite u => s * sigmoid x + 1 / (u - l) * lp

/-- The lower bound is below the upper bound, where there are both. -/
def Ordered (lb ub : Extended ℝ) : Prop := lb.lt ub = true

lemma ordered_infinite (lb : Extended ℝ) : Ordered lb .infinite := by
  unfold Ordered
  cases lb <;> rfl

lemma infinite_ordered (ub : Extended ℝ) : Ordered .infinite ub := rfl

lemma Ordered.sub_pos {l u : ℝ} (h : Ordered (.finite l) (.finite u)) : 0 < u - l := by
  have h : l < u := of_decide_eq_true h
  linarith

lemma hasDerivAt_log_sigmoid_mul (x : ℝ) :
    HasDerivAt (fun x => log (sigmoid x * (1 - sigmoid x))) (1 - 2 * sigmoid x) x := by
  have h := ((hasDerivAt_sigmoid x).mul ((hasDerivAt_sigmoid x).const_sub 1)).log (sigmoid_mul_pos x).ne'
  refine h.congr_deriv ?_
  have hσ := (sigmoid_pos x).ne'
  have hσ' := (one_sub_sigmoid_pos x).ne'
  rw [Pi.mul_apply]
  field_simp
  ring

theorem hasDerivAt_boundedObjective_raw (s lp : ℝ) {lb ub : Extended ℝ} (h : Ordered lb ub) (x : ℝ) :
    HasDerivAt (boundedObjective s lp lb ub) (rawTerm s lp lb ub x) x := by
  have hvalue := (hasDerivAt_bounded lb ub x).const_mul s
  suffices hlog : ∃ d, HasDerivAt (boundedLogSlope lb ub) d x ∧
      s * boundedSlope lb ub x + lp * d = rawTerm s lp lb ub x by
    obtain ⟨d, hd, hsum⟩ := hlog
    exact (hvalue.add (hd.const_mul lp)).congr_deriv hsum
  cases lb with
  | infinite =>
    cases ub with
    | infinite =>
      refine ⟨0, ?_, ?_⟩
      · rw [show boundedLogSlope .infinite .infinite = fun _ => 0 from funext boundedLogSlope_infinite]
        exact hasDerivAt_const x 0
      · simp [boundedSlope, rawTerm]
    | finite u =>
      refine ⟨1, ?_, ?_⟩
      · rw [show boundedLogSlope .infinite (.finite u) = id from funext (boundedLogSlope_upper u)]
        exact hasDerivAt_id x
      · simp only [boundedSlope, rawTerm]
        ring
  | finite l =>
    cases ub with
    | infinite =>
      refine ⟨1, ?_, ?_⟩
      · rw [show boundedLogSlope (.finite l) .infinite = id from funext (boundedLogSlope_lower l)]
        exact hasDerivAt_id x
      · simp only [boundedSlope, rawTerm]
        ring
    | finite u =>
      refine ⟨1 - 2 * sigmoid x, ?_, ?_⟩
      · have hfun : boundedLogSlope (.finite l) (.finite u) =
            fun x => log (u - l) + log (sigmoid x * (1 - sigmoid x)) := by
          funext x
          rw [boundedLogSlope_both, log_mul h.sub_pos.ne' (sigmoid_mul_pos x).ne']
        rw [hfun]
        exact (hasDerivAt_log_sigmoid_mul x).const_add _
      · simp only [boundedSlope, rawTerm]
        ring

theorem hasDerivAt_boundedObjective_lower (s lp x : ℝ) {l : ℝ} {ub : Extended ℝ}
    (h : Ordered (.finite l) ub) :
    HasDerivAt (fun t => boundedObjective s lp (.finite t) ub x) (lowerTerm s lp (.finite l) ub x) l := by
  cases ub with
  | infinite =>
    simp only [boundedObjective, bounded, boundedLogSlope_lower, lowerTerm]
    have hd := (((hasDerivAt_id l).const_add (exp x)).const_mul s).add_const (lp * x)
    exact hd.congr_deriv (mul_one s)
  | finite u =>
    simp only [boundedObjective, bounded, boundedLogSlope_both, lowerTerm]
    have hdiff : HasDerivAt (fun t => u - t) (-1) l := (hasDerivAt_id l).const_sub u
    have hpos := mul_pos h.sub_pos (sigmoid_mul_pos x)
    have hvalue := ((hdiff.mul_const (sigmoid x)).add (hasDerivAt_id l)).const_mul s
    have hlog := ((hdiff.mul_const (sigmoid x * (1 - sigmoid x))).log hpos.ne').const_mul lp
    refine (hvalue.add hlog).congr_deriv ?_
    have hσ := (sigmoid_mul_pos x).ne'
    rw [mul_div_mul_right _ _ hσ]
    ring

theorem hasDerivAt_boundedObjective_upper (s lp x : ℝ) {u : ℝ} {lb : Extended ℝ}
    (h : Ordered lb (.finite u)) :
    HasDerivAt (fun t => boundedObjective s lp lb (.finite t) x) (upperTerm s lp lb (.finite u) x) u := by
  cases lb with
  | infinite =>
    simp only [boundedObjective, bounded, boundedLogSlope_upper, upperTerm]
    have hd := (((hasDerivAt_id u).sub_const (exp x)).const_mul s).add_const (lp * x)
    exact hd.congr_deriv (mul_one s)
  | finite l =>
    simp only [boundedObjective, bounded, boundedLogSlope_both, upperTerm]
    have hdiff : HasDerivAt (fun t => t - l) 1 u := (hasDerivAt_id u).sub_const l
    have hpos := mul_pos h.sub_pos (sigmoid_mul_pos x)
    have hvalue := ((hdiff.mul_const (sigmoid x)).add_const l).const_mul s
    have hlog := ((hdiff.mul_const (sigmoid x * (1 - sigmoid x))).log hpos.ne').const_mul lp
    refine (hvalue.add hlog).congr_deriv ?_
    have hσ := (sigmoid_mul_pos x).ne'
    rw [mul_div_mul_right _ _ hσ]
    ring

/-! ## The operations -/

namespace Elementwise

/-- The transform of one element, whose arguments are `a 1` and `a 2`. -/
def value (op : Elementwise) (a : ℕ → Extended ℝ) (x : ℝ) : ℝ :=
  match op with
  | lower => bounded (a 1) .infinite x
  | upper => bounded .infinite (a 1) x
  | lu => bounded (a 1) (a 2) x
  | offsetMult => (a 2).num * x + (a 1).num

/-- The logarithm of the absolute value of its derivative. -/
def logSlope (op : Elementwise) (a : ℕ → Extended ℝ) (x : ℝ) : ℝ := log |deriv (op.value a) x|

/-- Arguments that the checks of the kernels accept. -/
def Proper (op : Elementwise) (a : ℕ → Extended ℝ) : Prop :=
  match op with
  | lower => True
  | upper => True
  | lu => Ordered (a 1) (a 2)
  | offsetMult => (a 1).isInfinite = false ∧ (a 2).isInfinite = false ∧ 0 < (a 2).num

/-- The transform and the logarithm of its derivative, weighted. -/
def elementObjective (op : Elementwise) (s lp : ℝ) (a : ℕ → Extended ℝ) (x : ℝ) : ℝ :=
  s * op.value a x + lp * op.logSlope a x

/-- The derivative of the weighted sum by the raw value (`k = 0`) and by each argument. -/
def term (op : Elementwise) (s lp : ℝ) (a : ℕ → Extended ℝ) (x : ℝ) (k : ℕ) : ℝ :=
  match op, k with
  | lower, 0 => rawTerm s lp (a 1) .infinite x
  | lower, _ => lowerTerm s lp (a 1) .infinite x
  | upper, 0 => rawTerm s lp .infinite (a 1) x
  | upper, _ => upperTerm s lp .infinite (a 1) x
  | lu, 0 => rawTerm s lp (a 1) (a 2) x
  | lu, 1 => lowerTerm s lp (a 1) (a 2) x
  | lu, _ => upperTerm s lp (a 1) (a 2) x
  | offsetMult, 0 => s * (a 2).num
  | offsetMult, 1 => s
  | offsetMult, _ => s * x + lp / (a 2).num

variable {op : Elementwise} {a : ℕ → Extended ℝ} {s lp x : ℝ}

lemma hasDerivAt_offsetMult (a : ℕ → Extended ℝ) (x : ℝ) :
    HasDerivAt (offsetMult.value a) (a 2).num x := by
  have h := ((hasDerivAt_id x).const_mul (a 2).num).add_const (a 1).num
  exact h.congr_deriv (mul_one _)

@[simp] lemma logSlope_offsetMult (a : ℕ → Extended ℝ) (x : ℝ) :
    offsetMult.logSlope a x = log (a 2).num := by
  rw [logSlope, (hasDerivAt_offsetMult a x).deriv, log_abs]

/-- The derivative by the raw value. -/
theorem hasDerivAt_elementObjective_raw (h : op.Proper a) (s lp x : ℝ) :
    HasDerivAt (op.elementObjective s lp a) (op.term s lp a x 0) x := by
  cases op with
  | lower => exact hasDerivAt_boundedObjective_raw s lp (ordered_infinite (a 1)) x
  | upper => exact hasDerivAt_boundedObjective_raw s lp (infinite_ordered (a 1)) x
  | lu => exact hasDerivAt_boundedObjective_raw s lp h x
  | offsetMult =>
    have hfun : offsetMult.elementObjective s lp a =
        fun x => s * offsetMult.value a x + lp * log (a 2).num := by
      funext x
      rw [elementObjective, logSlope_offsetMult]
    rw [hfun]
    exact ((hasDerivAt_offsetMult a x).const_mul s).add_const _

/-- The derivative by an argument that is finite. -/
theorem hasDerivAt_elementObjective_arg (h : op.Proper a) (s lp x : ℝ) {k : ℕ} (hk : 1 ≤ k)
    (hk' : k ≤ op.arity) {v : ℝ} (hv : a k = .finite v) :
    HasDerivAt (fun t => op.elementObjective s lp (update a k (.finite t)) x) (op.term s lp a x k) v := by
  cases op with
  | lower =>
    obtain rfl : k = 1 := le_antisymm hk' hk
    simp only [term, hv]
    exact hasDerivAt_boundedObjective_lower s lp x (ordered_infinite _)
  | upper =>
    obtain rfl : k = 1 := le_antisymm hk' hk
    simp only [term, hv]
    exact hasDerivAt_boundedObjective_upper s lp x (infinite_ordered _)
  | lu =>
    change Ordered (a 1) (a 2) at h
    obtain rfl | rfl : k = 1 ∨ k = 2 := by
      change k ≤ 2 at hk'
      omega
    · rw [hv] at h
      simp only [term, hv]
      exact hasDerivAt_boundedObjective_lower s lp x h
    · rw [hv] at h
      simp only [term, hv]
      exact hasDerivAt_boundedObjective_upper s lp x h
  | offsetMult =>
    obtain rfl | rfl : k = 1 ∨ k = 2 := by
      change k ≤ 2 at hk'
      omega
    · simp only [elementObjective, logSlope_offsetMult, term]
      have hd := (((hasDerivAt_id v).const_add ((a 2).num * x)).const_mul s).add_const
        (lp * log (a 2).num)
      exact hd.congr_deriv (mul_one s)
    · have hpos : 0 < v := by
        have := h.2.2
        rwa [hv] at this
      simp only [elementObjective, logSlope_offsetMult, term, hv]
      have hvalue := (((hasDerivAt_id v).mul_const x).add_const (a 1).num).const_mul s
      have hlog := ((hasDerivAt_id v).log hpos.ne').const_mul lp
      refine (hvalue.add hlog).congr_deriv ?_
      simp only [id, one_mul, Extended.num, mul_one_div]

/-- An infinite argument takes no share. -/
lemma term_of_infinite (h : op.Proper a) (s lp x : ℝ) {k : ℕ} (hk : 1 ≤ k) (hk' : k ≤ op.arity)
    (hv : a k = .infinite) : op.term s lp a x k = 0 := by
  cases op with
  | lower =>
    obtain rfl : k = 1 := le_antisymm hk' hk
    simp only [term, hv, lowerTerm]
  | upper =>
    obtain rfl : k = 1 := le_antisymm hk' hk
    simp only [term, hv, upperTerm]
  | lu =>
    obtain rfl | rfl : k = 1 ∨ k = 2 := by
      change k ≤ 2 at hk'
      omega
    · simp only [term, hv, lowerTerm]
    · simp only [term, hv, upperTerm]
  | offsetMult =>
    obtain rfl | rfl : k = 1 ∨ k = 2 := by
      change k ≤ 2 at hk'
      omega
    · rw [Proper, hv] at h
      exact absurd h.1 Bool.noConfusion
    · rw [Proper, hv] at h
      exact absurd h.2.1 Bool.noConfusion

end Elementwise

end

end Stanli.Constrain
