import Mathlib.Algebra.BigOperators.Field
import Mathlib.Analysis.Calculus.Deriv.Add
import Mathlib.Analysis.Calculus.Deriv.Inv
import Mathlib.Analysis.Calculus.Deriv.Mul
import Mathlib.Analysis.SpecialFunctions.ExpDeriv
import Mathlib.Analysis.SpecialFunctions.Log.Deriv
import Mathlib.Analysis.SpecialFunctions.Sqrt
import Mathlib.Analysis.SpecialFunctions.Trigonometric.DerivHyp
import Mathlib.Topology.Algebra.Module.ModuleTopology
import Stanli.Constrain.Structured

/-!
# The simplex and the ordered vectors

The constrained values and the log-Jacobian of one leaf, and the derivatives of a weighted sum of them.  A
simplex is the softmax of coordinates that sum to zero (`hasDerivAt_simplex`); an ordered vector is a running
sum of positive steps (`hasDerivAt_ordered`).
-/

namespace Stanli.Constrain

open Finset Function Real

noncomputable section

/-! ## The simplex -/

/-- What raw value `i`, scaled, adds to coordinate `j`: the coordinates up to `i` rise by one, and the next
one falls by as much as they rise together. -/
def helmert (i j : ℕ) : ℝ := if j ≤ i then 1 else if j = i + 1 then -((i : ℝ) + 1) else 0

/-- The length by which raw value `i` is scaled. -/
def helmertNorm (i : ℕ) : ℝ := √(((i : ℝ) + 1) * ((i : ℝ) + 1 + 1))

/-- The coordinates, which sum to zero. -/
def simplexLogit (n : ℕ) (y : ℕ → ℝ) (j : ℕ) : ℝ := ∑ i ∈ range n, helmert i j * (y i / helmertNorm i)

/-- The sum of the exponentials of the coordinates. -/
def simplexTotal (n : ℕ) (y : ℕ → ℝ) : ℝ := ∑ j ∈ range (n + 1), exp (simplexLogit n y j)

def simplexValue (n : ℕ) (y : ℕ → ℝ) (j : ℕ) : ℝ := exp (simplexLogit n y j) / simplexTotal n y

def simplexLogJacobian (n : ℕ) (y : ℕ → ℝ) : ℝ :=
  -((n : ℝ) + 1) * log (simplexTotal n y) + 1 / 2 * log ((n : ℝ) + 1)

lemma simplexTotal_pos (n : ℕ) (y : ℕ → ℝ) : 0 < simplexTotal n y :=
  sum_pos (fun _ _ => exp_pos _) ⟨0, mem_range.2 (Nat.succ_pos n)⟩

/-- The derivative by a coordinate, up to an amount that is the same for all coordinates. -/
def simplexAdj (n : ℕ) (s : ℕ → ℝ) (lp : ℝ) (res : ℕ → ℝ) (j : ℕ) : ℝ :=
  -res j * ((∑ i ∈ range (n + 1), s i * res i) + ((n : ℝ) + 1) * lp) + (res j * s j + lp)

def simplexPullback (n : ℕ) (s : ℕ → ℝ) (lp : ℝ) (y : ℕ → ℝ) (k : ℕ) : ℝ :=
  (-simplexAdj n s lp (simplexValue n y) (k + 1) * ((k : ℝ) + 1) +
    ∑ j ∈ range (k + 1), simplexAdj n s lp (simplexValue n y) j) / helmertNorm k

/-- The derivative of a weighted softmax and of its normaliser along a curve. -/
lemma hasDerivAt_softmax {N : ℕ} {z : ℕ → ℝ → ℝ} {z' : ℕ → ℝ} {t : ℝ}
    (hz : ∀ j < N, HasDerivAt (z j) (z' j) t) (hpos : 0 < ∑ j ∈ range N, exp (z j t)) (s : ℕ → ℝ)
    (w c : ℝ) {p : ℕ → ℝ} (hp : ∀ j, p j = exp (z j t) / ∑ l ∈ range N, exp (z l t)) :
    HasDerivAt (fun t => (∑ i ∈ range N, s i * (exp (z i t) / ∑ j ∈ range N, exp (z j t))) +
        (w * log (∑ j ∈ range N, exp (z j t)) + c))
      (∑ j ∈ range N, (p j * (s j - ∑ i ∈ range N, s i * p i) + w * p j) * z' j) t := by
  set Z := ∑ j ∈ range N, exp (z j t) with hZdef
  have hZ : HasDerivAt (fun t => ∑ j ∈ range N, exp (z j t)) (∑ j ∈ range N, exp (z j t) * z' j) t :=
    HasDerivAt.fun_sum fun j hj => (hz j (mem_range.1 hj)).exp
  have hsum := HasDerivAt.fun_sum fun i hi =>
    ((hz i (mem_range.1 hi)).exp.div hZ hpos.ne').const_mul (s i)
  have hlog := ((hZ.log hpos.ne').const_mul w).add_const c
  refine (hsum.add hlog).congr_deriv ?_
  -- the rate of the logarithm of the total is the mean rate of the coordinates
  have hq : (∑ j ∈ range N, exp (z j t) * z' j) / Z = ∑ j ∈ range N, p j * z' j := by
    rw [sum_div]
    exact sum_congr rfl fun j _ => by rw [hp]; ring
  set q := ∑ j ∈ range N, p j * z' j with hqdef
  have hterm : ∀ i ∈ range N, s i * ((exp (z i t) * z' i * Z - exp (z i t) *
      ∑ j ∈ range N, exp (z j t) * z' j) / Z ^ 2) = s i * p i * z' i - s i * p i * q := by
    intro i _
    rw [← hq, hp]
    field_simp
  rw [sum_congr rfl hterm, hq, sum_sub_distrib, ← sum_mul, hqdef, mul_sum, mul_sum, ← sum_sub_distrib,
    ← sum_add_distrib]
  exact sum_congr rfl fun j _ => by ring

/-- The coordinates as functions of one raw value. -/
lemma hasDerivAt_simplexLogit {n k : ℕ} (hk : k < n) (y : ℕ → ℝ) (j : ℕ) :
    HasDerivAt (fun t => simplexLogit n (update y k t) j) (helmert k j / helmertNorm k) (y k) := by
  have hsum : HasDerivAt (fun t => ∑ i ∈ range n, helmert i j * (update y k t i / helmertNorm i))
      (∑ i ∈ range n, if i = k then helmert k j / helmertNorm k else 0) (y k) := by
    refine HasDerivAt.fun_sum fun i _ => ?_
    by_cases hi : i = k
    · subst hi
      simp only [update_self, if_true]
      refine (((hasDerivAt_id (y i)).div_const (helmertNorm i)).const_mul (helmert i j)).congr_deriv ?_
      ring
    · simp only [update_of_ne hi, if_neg hi]
      exact hasDerivAt_const _ _
  refine hsum.congr_deriv ?_
  rw [sum_ite_eq', if_pos (mem_range.2 hk)]

/-- A raw value moves the coordinates without changing their sum. -/
lemma sum_mul_helmert {n k : ℕ} (hk : k < n) (g : ℕ → ℝ) :
    ∑ j ∈ range (n + 1), g j * helmert k j =
      (∑ j ∈ range (k + 1), g j) - g (k + 1) * ((k : ℝ) + 1) := by
  have hsplit : range (n + 1) = range (k + 1 + 1 + (n - (k + 1))) := by
    congr 1
    omega
  rw [hsplit, sum_range_add, sum_range_succ]
  have hzero : ∑ x ∈ range (n - (k + 1)), g (k + 1 + 1 + x) * helmert k (k + 1 + 1 + x) = 0 := by
    refine sum_eq_zero fun x _ => ?_
    rw [helmert, if_neg (by omega), if_neg (by omega), mul_zero]
  have hone : ∑ j ∈ range (k + 1), g j * helmert k j = ∑ j ∈ range (k + 1), g j := by
    refine sum_congr rfl fun j hj => ?_
    rw [helmert, if_pos (Nat.lt_succ_iff.1 (mem_range.1 hj)), mul_one]
  rw [hzero, hone, helmert, if_neg (by omega), if_pos rfl, add_zero]
  ring

theorem hasDerivAt_simplex {n k : ℕ} (hk : k < n) (s : ℕ → ℝ) (lp : ℝ) (y : ℕ → ℝ) :
    HasDerivAt (fun t => (∑ i ∈ range (n + 1), s i * simplexValue n (update y k t) i) +
        lp * simplexLogJacobian n (update y k t)) (simplexPullback n s lp y k) (y k) := by
  have hsoft := hasDerivAt_softmax (N := n + 1) (z := fun j t => simplexLogit n (update y k t) j)
    (fun j _ => hasDerivAt_simplexLogit hk y j) (by simp only [update_eq_self]; exact simplexTotal_pos n y) s
    (lp * -((n : ℝ) + 1)) (lp * (1 / 2 * log ((n : ℝ) + 1))) (p := simplexValue n y)
    (fun j => by simp only [update_eq_self]; rfl)
  have hfun : (fun t => (∑ i ∈ range (n + 1), s i * simplexValue n (update y k t) i) +
      lp * simplexLogJacobian n (update y k t)) = fun t =>
        (∑ i ∈ range (n + 1), s i * (exp (simplexLogit n (update y k t) i) /
          ∑ j ∈ range (n + 1), exp (simplexLogit n (update y k t) j))) +
        (lp * -((n : ℝ) + 1) * log (∑ j ∈ range (n + 1), exp (simplexLogit n (update y k t) j)) +
          lp * (1 / 2 * log ((n : ℝ) + 1))) := by
    funext t
    simp only [simplexValue, simplexLogJacobian, simplexTotal]
    ring
  rw [hfun]
  refine hsoft.congr_deriv ?_
  set res := simplexValue n y
  have hadj : ∀ j ∈ range (n + 1), (res j * (s j - ∑ i ∈ range (n + 1), s i * res i) +
      lp * -((n : ℝ) + 1) * res j) * (helmert k j / helmertNorm k) =
        (simplexAdj n s lp res j - lp) * helmert k j / helmertNorm k := by
    intro j _
    unfold simplexAdj
    ring
  rw [sum_congr rfl hadj, ← sum_div, sum_mul_helmert hk, sum_sub_distrib, sum_const, card_range,
    nsmul_eq_mul, simplexPullback]
  congr 1
  push_cast
  ring

/-! ## Ordered vectors -/

/-- Running sums of steps, of which the first is not exponentiated in an ordered vector. -/
def firstStep (positive : Bool) (u : ℝ) : ℝ := if positive then exp u else u

def step (positive : Bool) (y : ℕ → ℝ) (l : ℕ) : ℝ := if l = 0 then firstStep positive (y 0) else exp (y l)

def orderedValue (positive : Bool) (y : ℕ → ℝ) (j : ℕ) : ℝ := ∑ l ∈ range (j + 1), step positive y l

/-- The logarithms of the steps that are exponentials. -/
def orderedLogJacobian (positive : Bool) (n : ℕ) (y : ℕ → ℝ) : ℝ :=
  ∑ l ∈ range n, if l = 0 ∧ positive = false then 0 else y l

def orderedPullback (positive : Bool) (n : ℕ) (s : ℕ → ℝ) (lp : ℝ) (y : ℕ → ℝ) (k : ℕ) : ℝ :=
  if k = 0 ∧ positive = false then ∑ j ∈ range n, s j
  else exp (y k) * (∑ j ∈ range n, if k ≤ j then s j else 0) + lp

/-- A step as a function of its raw value. -/
lemma hasDerivAt_step (positive : Bool) (y : ℕ → ℝ) (k : ℕ) :
    HasDerivAt (fun t => step positive (update y k t) k)
      (if k = 0 ∧ positive = false then 1 else exp (y k)) (y k) := by
  unfold step firstStep
  simp only [update_self]
  by_cases hk : k = 0
  · subst hk
    simp only [if_true, true_and, update_self]
    cases positive with
    | false => exact hasDerivAt_id (y 0)
    | true => exact Real.hasDerivAt_exp (y 0)
  · simp only [hk, false_and, if_false]
    exact Real.hasDerivAt_exp (y k)

lemma step_update_of_ne (positive : Bool) (y : ℕ → ℝ) {k l : ℕ} (h : l ≠ k) (t : ℝ) :
    step positive (update y k t) l = step positive y l := by
  unfold step
  by_cases hl : l = 0
  · subst hl
    rw [if_pos rfl, if_pos rfl, update_of_ne h]
  · rw [if_neg hl, if_neg hl, update_of_ne h]

theorem hasDerivAt_ordered (positive : Bool) {n k : ℕ} (hk : k < n) (s : ℕ → ℝ) (lp : ℝ)
    (y : ℕ → ℝ) :
    HasDerivAt (fun t => (∑ i ∈ range n, s i * orderedValue positive (update y k t) i) +
        lp * orderedLogJacobian positive n (update y k t)) (orderedPullback positive n s lp y k) (y k) := by
  set d := if k = 0 ∧ positive = false then 1 else exp (y k) with hd
  have hvalue : ∀ i, HasDerivAt (fun t => orderedValue positive (update y k t) i)
      (if k ≤ i then d else 0) (y k) := by
    intro i
    have hsum : HasDerivAt (fun t => ∑ l ∈ range (i + 1), step positive (update y k t) l)
        (∑ l ∈ range (i + 1), if l = k then d else 0) (y k) := by
      refine HasDerivAt.fun_sum fun l _ => ?_
      by_cases hl : l = k
      · subst hl
        rw [if_pos rfl]
        exact hasDerivAt_step positive y l
      · rw [if_neg hl]
        simp only [step_update_of_ne positive y hl]
        exact hasDerivAt_const _ _
    refine hsum.congr_deriv ?_
    rw [sum_ite_eq']
    exact if_congr (by rw [mem_range, Nat.lt_succ_iff]) rfl rfl
  have hlog : HasDerivAt (fun t => orderedLogJacobian positive n (update y k t))
      (if k = 0 ∧ positive = false then 0 else 1) (y k) := by
    have hsum : HasDerivAt (fun t => ∑ l ∈ range n, if l = 0 ∧ positive = false then 0
        else update y k t l) (∑ l ∈ range n, if l = k then
          (if k = 0 ∧ positive = false then (0 : ℝ) else 1) else 0) (y k) := by
      refine HasDerivAt.fun_sum fun l _ => ?_
      by_cases hl : l = k
      · subst hl
        simp only [update_self, if_true]
        by_cases hz : l = 0 ∧ positive = false
        · simp only [if_pos hz]
          exact hasDerivAt_const _ _
        · simp only [if_neg hz]
          exact hasDerivAt_id (y l)
      · simp only [update_of_ne hl, if_neg hl]
        exact hasDerivAt_const _ _
    refine hsum.congr_deriv ?_
    rw [sum_ite_eq', if_pos (mem_range.2 hk)]
  have hsum := (HasDerivAt.fun_sum fun i (_ : i ∈ range n) => (hvalue i).const_mul (s i)).add
    (hlog.const_mul lp)
  refine hsum.congr_deriv ?_
  unfold orderedPullback
  by_cases hz : k = 0 ∧ positive = false
  · rw [if_pos hz, if_pos hz, mul_zero, add_zero, hd, if_pos hz]
    refine sum_congr rfl fun j _ => ?_
    rw [hz.1, if_pos (Nat.zero_le j), mul_one]
  · rw [if_neg hz, if_neg hz, mul_one, hd, if_neg hz, mul_sum]
    congr 1
    refine sum_congr rfl fun j _ => ?_
    split <;> ring

end

end Stanli.Constrain
