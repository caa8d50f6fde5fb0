import Mathlib.Algebra.BigOperators.Intervals
import Mathlib.Data.Nat.Choose.Basic
import Stanli.Constrain.StructuredTransforms

/-!
# The Cholesky factor of a correlation matrix

A row of the factor takes from the unit sphere: an entry is the hyperbolic tangent of its raw value times
the root of what the earlier entries of the row have left (`entryAt`), and the diagonal is the root of what
all of them have left.  The derivatives of a weighted sum of a row are found from its end to its start, as
the pullback finds them (`hasDerivAt_rowTail`).
-/

namespace Stanli.Constrain

open Finset Function Real

noncomputable section

/-! ## Rows -/

/-- The sum of squares of the entries before `j`. -/
def prefixSq (z : ℕ → ℝ) : ℕ → ℝ
  | 0 => 0
  | j + 1 => prefixSq z j + z j * √(1 - prefixSq z j) * (z j * √(1 - prefixSq z j))

def rootAt (z : ℕ → ℝ) (j : ℕ) : ℝ := √(1 - prefixSq z j)

def entryAt (z : ℕ → ℝ) (j : ℕ) : ℝ := z j * rootAt z j

lemma prefixSq_succ (z : ℕ → ℝ) (j : ℕ) :
    prefixSq z (j + 1) = prefixSq z j + entryAt z j * entryAt z j := rfl

variable {z z' : ℕ → ℝ} {i : ℕ}

/-- The entries of a row never use up the unit sphere. -/
lemma prefixSq_lt_one (hz : ∀ j < i, z j * z j < 1) {j : ℕ} (hj : j ≤ i) : prefixSq z j < 1 := by
  induction j with
  | zero => exact one_pos
  | succ j ih =>
    have hlt := ih (Nat.le_of_succ_le hj)
    have hsq : rootAt z j * rootAt z j = 1 - prefixSq z j := mul_self_sqrt (by linarith)
    have hleft : 1 - prefixSq z (j + 1) = (1 - prefixSq z j) * (1 - z j * z j) := by
      rw [prefixSq_succ, entryAt]
      linear_combination -(z j * z j) * hsq
    have hpos : 0 < (1 - prefixSq z j) * (1 - z j * z j) :=
      mul_pos (by linarith) (by linarith [hz j (Nat.lt_of_succ_le hj)])
    linarith

lemma rootAt_pos (hz : ∀ j < i, z j * z j < 1) {j : ℕ} (hj : j ≤ i) : 0 < rootAt z j :=
  sqrt_pos.2 (by linarith [prefixSq_lt_one hz hj])

/-- What the outputs from an entry on add to the weighted sum: the last `d` entries, the diagonal, and the
shares of the log-Jacobian that depend on what is left of the sphere. -/
def rowTail (σ : ℕ → ℝ) (τ lp : ℝ) (i : ℕ) (z : ℕ → ℝ) : ℕ → ℝ
  | 0 => τ * rootAt z i
  | d + 1 => σ (i - 1 - d) * entryAt z (i - 1 - d) +
      lp * (1 / 2 * log (1 - prefixSq z (i - 1 - d))) + rowTail σ τ lp i z d

/-- The derivative of the tail by the sum of squares that it starts from. -/
def prefixAdj (σ : ℕ → ℝ) (τ lp : ℝ) (i : ℕ) (z : ℕ → ℝ) : ℕ → ℝ
  | 0 => -(τ / (2 * rootAt z i))
  | d + 1 => prefixAdj σ τ lp i z d -
      (σ (i - 1 - d) + prefixAdj σ τ lp i z d * 2 * entryAt z (i - 1 - d)) * z (i - 1 - d) /
        (2 * rootAt z (i - 1 - d)) + lp * (1 / 2) / (prefixSq z (i - 1 - d) - 1)

/-- The derivative of the tail by a hyperbolic tangent, `d` entries before the end. -/
def tanhAdj (σ : ℕ → ℝ) (τ lp : ℝ) (i : ℕ) (z : ℕ → ℝ) (d : ℕ) : ℝ :=
  (σ (i - 1 - d) + prefixAdj σ τ lp i z d * 2 * entryAt z (i - 1 - d)) * rootAt z (i - 1 - d)

/-- The rate of the sum of squares along a curve. -/
def prefixRate (z z' : ℕ → ℝ) : ℕ → ℝ
  | 0 => 0
  | j + 1 => prefixRate z z' j + 2 * entryAt z j *
      (z' j * rootAt z j + z j * (-prefixRate z z' j / (2 * rootAt z j)))

section Curves

variable {c : ℕ → ℝ → ℝ} {t : ℝ}

lemma hasDerivAt_rootAt {r : ℝ} {j : ℕ} (h : HasDerivAt (fun t => prefixSq (fun l => c l t) j) r t)
    (hpos : 0 < rootAt (fun l => c l t) j) :
    HasDerivAt (fun t => rootAt (fun l => c l t) j) (-r / (2 * rootAt (fun l => c l t) j)) t :=
  (h.const_sub 1).sqrt (sqrt_pos.1 hpos).ne'

lemma hasDerivAt_entryAt {r : ℝ} {j : ℕ} (hc : HasDerivAt (c j) (z' j) t)
    (h : HasDerivAt (fun t => prefixSq (fun l => c l t) j) r t)
    (hpos : 0 < rootAt (fun l => c l t) j) :
    HasDerivAt (fun t => entryAt (fun l => c l t) j)
      (z' j * rootAt (fun l => c l t) j + c j t * (-r / (2 * rootAt (fun l => c l t) j))) t :=
  hc.mul (hasDerivAt_rootAt h hpos)

lemma hasDerivAt_prefixSq (hc : ∀ j < i, HasDerivAt (c j) (z' j) t)
    (hlt : ∀ j < i, c j t * c j t < 1) {j : ℕ} (hj : j ≤ i) :
    HasDerivAt (fun t => prefixSq (fun l => c l t) j) (prefixRate (fun l => c l t) z' j) t := by
  induction j with
  | zero => exact hasDerivAt_const t 0
  | succ j ih =>
    have hprev := ih (Nat.le_of_succ_le hj)
    have hroot := rootAt_pos (z := fun l => c l t) hlt (Nat.le_of_succ_le hj)
    have hentry := hasDerivAt_entryAt (hc j (Nat.lt_of_succ_le hj)) hprev hroot
    refine (hprev.add (hentry.mul hentry)).congr_deriv ?_
    rw [prefixRate]
    ring

/-- The derivative of a tail along a curve: through the sum of squares it starts from, and through the
hyperbolic tangents of its own entries. -/
theorem hasDerivAt_rowTail (σ : ℕ → ℝ) (τ lp : ℝ) (hc : ∀ j < i, HasDerivAt (c j) (z' j) t)
    (hlt : ∀ j < i, c j t * c j t < 1) {d : ℕ} (hd : d ≤ i) :
    HasDerivAt (fun t => rowTail σ τ lp i (fun l => c l t) d)
      (prefixAdj σ τ lp i (fun l => c l t) d * prefixRate (fun l => c l t) z' (i - d) +
        ∑ l ∈ range d, tanhAdj σ τ lp i (fun l => c l t) l * z' (i - 1 - l)) t := by
  set z := fun l => c l t with hz
  induction d with
  | zero =>
    have hroot := rootAt_pos (z := z) hlt le_rfl
    have h := (hasDerivAt_rootAt (hasDerivAt_prefixSq hc hlt le_rfl) hroot).const_mul τ
    refine h.congr_deriv ?_
    rw [prefixAdj, sum_range_zero, add_zero, Nat.sub_zero]
    ring
  | succ d ih =>
    have hrest := ih (Nat.le_of_succ_le hd)
    have hj : i - 1 - d < i := by omega
    have hpre := hasDerivAt_prefixSq hc hlt hj.le
    have hroot := rootAt_pos (z := z) hlt hj.le
    have hleft : 0 < 1 - prefixSq z (i - 1 - d) := sqrt_pos.1 hroot
    have hentry := hasDerivAt_entryAt (hc _ hj) hpre hroot
    have hlog := (((hpre.const_sub 1).log hleft.ne').const_mul (1 / 2)).const_mul lp
    refine (((hentry.const_mul (σ (i - 1 - d))).add hlog).add hrest).congr_deriv ?_
    -- one entry less is left, and its rate goes through the sum of squares behind it
    have hsucc : i - d = i - 1 - d + 1 := by omega
    have hpred : i - (d + 1) = i - 1 - d := by omega
    have hneg : prefixSq z (i - 1 - d) - 1 ≠ 0 := by linarith
    rw [sum_range_succ, hsucc, hpred, prefixRate, prefixAdj, tanhAdj]
    set A := prefixAdj σ τ lp i z d
    set j := i - 1 - d
    set rate := prefixRate z z' j
    set r := rootAt z j
    have hjac : lp * (1 / 2 * (-rate / (1 - prefixSq z j))) =
        lp * (1 / 2) / (prefixSq z j - 1) * rate := by
      have hflip : 1 - prefixSq z j = -(prefixSq z j - 1) := by ring
      rw [hflip, neg_div_neg_eq]
      ring
    have hr : r ≠ 0 := hroot.ne'
    rw [hjac]
    field_simp
    ring

end Curves

/-- A tail, from its start to its end. -/
lemma rowTail_eq (σ : ℕ → ℝ) (τ lp : ℝ) (i : ℕ) (z : ℕ → ℝ) :
    rowTail σ τ lp i z i = (∑ j ∈ range i, (σ j * entryAt z j + lp * (1 / 2 * log (1 - prefixSq z j)))) +
      τ * rootAt z i := by
  have hgen : ∀ d, rowTail σ τ lp i z d = (∑ l ∈ range d, (σ (i - 1 - l) * entryAt z (i - 1 - l) +
      lp * (1 / 2 * log (1 - prefixSq z (i - 1 - l))))) + τ * rootAt z i := by
    intro d
    induction d with
    | zero => rw [sum_range_zero, zero_add, rowTail]
    | succ d ih =>
      rw [rowTail, ih, sum_range_succ]
      ring
  rw [hgen, sum_range_reflect (fun j => σ j * entryAt z j + lp * (1 / 2 * log (1 - prefixSq z j)))]

/-! ## The factor -/

/-- The place of a row's first raw value. -/
def triangle (i : ℕ) : ℕ := i * (i - 1) / 2

lemma triangle_succ (i : ℕ) : triangle (i + 1) = triangle i + i := Nat.triangle_succ i

/-- The hyperbolic tangents of a row's raw values. -/
def rowTanh (y : ℕ → ℝ) (i j : ℕ) : ℝ := tanh (y (triangle i + j))

/-- The entry in row `i` and column `j`. -/
def cholValue (y : ℕ → ℝ) (i j : ℕ) : ℝ :=
  if j < i then entryAt (rowTanh y i) j else if j = i then rootAt (rowTanh y i) i else 0

/-- The log-Jacobian, where the first term of each row is zero. -/
def cholLogJacobian (size : ℕ) (y : ℕ → ℝ) : ℝ :=
  (∑ k ∈ range (triangle size), log (1 - tanh (y k) * tanh (y k))) +
    ∑ i ∈ range size, ∑ j ∈ range i, 1 / 2 * log (1 - prefixSq (rowTanh y i) j)

/-- What the entry `j` of row `i` adds to the adjoint of its raw value. -/
def cholAdj (size : ℕ) (s : ℕ → ℝ) (lp : ℝ) (y : ℕ → ℝ) (i j : ℕ) : ℝ :=
  (tanhAdj (fun j => s (j * size + i)) (s (i * size + i)) lp i (rowTanh y i) (i - 1 - j) +
    lp / (rowTanh y i j * rowTanh y i j - 1) * 2 * rowTanh y i j) /
      (cosh (y (triangle i + j)) * cosh (y (triangle i + j)))

def cholPullback (size : ℕ) (s : ℕ → ℝ) (lp : ℝ) (y : ℕ → ℝ) (k : ℕ) : ℝ :=
  ∑ i ∈ range size, ∑ j ∈ range i, if triangle i + j = k then cholAdj size s lp y i j else 0

/-- The numbers below a product, by quotient and remainder. -/
lemma sum_range_mul {M : Type*} [AddCommMonoid M] (a b : ℕ) (f : ℕ → M) :
    ∑ l ∈ range (a * b), f l = ∑ p ∈ range a, ∑ q ∈ range b, f (p * b + q) := by
  induction a with
  | zero => rw [Nat.zero_mul, sum_range_zero, sum_range_zero]
  | succ a ih => rw [Nat.succ_mul, sum_range_add, ih, sum_range_succ]

/-- The raw values, row by row. -/
lemma sum_triangle {M : Type*} [AddCommMonoid M] (size : ℕ) (f : ℕ → M) :
    ∑ k ∈ range (triangle size), f k = ∑ i ∈ range size, ∑ j ∈ range i, f (triangle i + j) := by
  induction size with
  | zero => rfl
  | succ size ih => rw [triangle_succ, sum_range_add, ih, sum_range_succ]

/-- The weighted sum of the outputs, row by row. -/
lemma chol_objective_eq (size : ℕ) (s : ℕ → ℝ) (lp : ℝ) (y : ℕ → ℝ) :
    (∑ l ∈ range (size * size), s l * cholValue y (l % size) (l / size)) + lp * cholLogJacobian size y =
      ∑ i ∈ range size, (rowTail (fun j => s (j * size + i)) (s (i * size + i)) lp i (rowTanh y i) i +
        lp * ∑ j ∈ range i, log (1 - rowTanh y i j * rowTanh y i j)) := by
  have hrow : ∀ i ∈ range size, ∑ j ∈ range size, s (j * size + i) * cholValue y i j =
      (∑ j ∈ range i, s (j * size + i) * entryAt (rowTanh y i) j) +
        s (i * size + i) * rootAt (rowTanh y i) i := by
    intro i hi
    have hi := mem_range.1 hi
    have hsplit : range size = range (i + 1 + (size - (i + 1))) := by
      congr 1
      omega
    have hzero : ∑ x ∈ range (size - (i + 1)),
        s ((i + 1 + x) * size + i) * cholValue y i (i + 1 + x) = 0 := by
      refine sum_eq_zero fun x _ => ?_
      rw [cholValue, if_neg (by omega), if_neg (by omega), mul_zero]
    rw [hsplit, sum_range_add, hzero, add_zero, sum_range_succ, cholValue, if_neg (lt_irrefl i),
      if_pos rfl]
    congr 1
    refine sum_congr rfl fun j hj => ?_
    rw [cholValue, if_pos (mem_range.1 hj)]
  have hflat : ∑ l ∈ range (size * size), s l * cholValue y (l % size) (l / size) =
      ∑ i ∈ range size, ∑ j ∈ range size, s (j * size + i) * cholValue y i j := by
    rw [sum_range_mul, sum_comm]
    refine sum_congr rfl fun i hi => sum_congr rfl fun j _ => ?_
    have hi := mem_range.1 hi
    have hmod : (j * size + i) % size = i := by rw [Nat.mul_add_mod_self_right, Nat.mod_eq_of_lt hi]
    have hdiv : (j * size + i) / size = j := by
      rw [Nat.add_comm, Nat.add_mul_div_right _ _ (by omega), Nat.div_eq_of_lt hi, Nat.zero_add]
    rw [hmod, hdiv]
  rw [hflat, sum_congr rfl hrow, cholLogJacobian, sum_triangle, mul_add, mul_sum, mul_sum,
    ← sum_add_distrib, ← sum_add_distrib]
  refine sum_congr rfl fun i _ => ?_
  rw [rowTail_eq, sum_add_distrib, mul_sum (range i) (fun j => 1 / 2 * log (1 - prefixSq (rowTanh y i) j))]
  simp only [rowTanh]
  ring

lemma hasDerivAt_tanh (u : ℝ) : HasDerivAt tanh (1 / (cosh u * cosh u)) u := by
  have hfun : tanh = fun u => sinh u / cosh u := funext tanh_eq_sinh_div_cosh
  have hpos := cosh_pos u
  rw [hfun]
  refine ((Real.hasDerivAt_sinh u).div (Real.hasDerivAt_cosh u) hpos.ne').congr_deriv ?_
  have hsq := cosh_sq u
  rw [div_eq_div_iff (by positivity) (by positivity)]
  linear_combination cosh u ^ 2 * hsq

lemma tanh_mul_self_lt_one (u : ℝ) : tanh u * tanh u < 1 := by
  rw [← sq]
  exact tanh_sq_lt_one u

theorem hasDerivAt_chol (size : ℕ) (s : ℕ → ℝ) (lp : ℝ) (y : ℕ → ℝ) (k : ℕ) :
    HasDerivAt (fun t => (∑ l ∈ range (size * size),
        s l * cholValue (update y k t) (l % size) (l / size)) +
        lp * cholLogJacobian size (update y k t)) (cholPullback size s lp y k) (y k) := by
  simp only [chol_objective_eq]
  refine HasDerivAt.fun_sum fun i _ => ?_
  set z' := fun j => if triangle i + j = k then 1 / (cosh (y (triangle i + j)) *
    cosh (y (triangle i + j))) else 0 with hz'
  have hrow : rowTanh (update y k (y k)) i = rowTanh y i := by rw [update_eq_self]
  have hc : ∀ j, HasDerivAt (fun t => rowTanh (update y k t) i j) (z' j) (y k) := by
    intro j
    unfold rowTanh
    by_cases hj : triangle i + j = k
    · simp only [hz', if_pos hj]
      rw [← hj]
      simp only [update_self]
      exact hasDerivAt_tanh _
    · simp only [hz', if_neg hj, update_of_ne hj]
      exact hasDerivAt_const _ _
  have hlt : ∀ j, rowTanh (update y k (y k)) i j * rowTanh (update y k (y k)) i j < 1 :=
    fun j => tanh_mul_self_lt_one _
  have htail := hasDerivAt_rowTail (fun j => s (j * size + i)) (s (i * size + i)) lp
    (c := fun j t => rowTanh (update y k t) i j) (fun j _ => hc j) (fun j _ => hlt j) (le_refl i)
  have hlog : HasDerivAt (fun t => ∑ j ∈ range i,
      log (1 - rowTanh (update y k t) i j * rowTanh (update y k t) i j))
      (∑ j ∈ range i, 1 / (rowTanh y i j * rowTanh y i j - 1) * 2 * rowTanh y i j * z' j) (y k) := by
    refine HasDerivAt.fun_sum fun j _ => ?_
    have hpos : 1 - rowTanh (update y k (y k)) i j * rowTanh (update y k (y k)) i j ≠ 0 :=
      (sub_pos.2 (hlt j)).ne'
    refine ((((hc j).mul (hc j)).const_sub 1).log hpos).congr_deriv ?_
    simp only [Pi.mul_apply, hrow]
    have hflip : 1 - rowTanh y i j * rowTanh y i j = -(rowTanh y i j * rowTanh y i j - 1) := by ring
    rw [hflip, neg_div_neg_eq]
    ring
  refine (htail.add (hlog.const_mul lp)).congr_deriv ?_
  simp only [hrow]
  rw [Nat.sub_self, prefixRate, mul_zero, zero_add, mul_sum,
    ← sum_range_reflect (fun j => if triangle i + j = k then cholAdj size s lp y i j else 0) i,
    ← sum_range_reflect (fun j => lp * (1 / (rowTanh y i j * rowTanh y i j - 1) * 2 * rowTanh y i j *
      z' j)) i, ← sum_add_distrib]
  refine sum_congr rfl fun l hl => ?_
  have hl := mem_range.1 hl
  have hback : i - 1 - (i - 1 - l) = l := by omega
  simp only [hz', cholAdj, hback]
  split
  · ring
  · ring

end

end Stanli.Constrain
