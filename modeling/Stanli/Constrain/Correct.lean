import Mathlib.Tactic.IntervalCases
import Stanli.Constrain.StructuredCorrect

/-!
# When the constraint kernels and their pullbacks agree

A valid call of an elementwise or of a structured operation is exact if and only if it reads inside its
buffers (`Call.exact_iff`).  A structured operation always does; an elementwise one does not where an
argument is empty that the kernels read even when there are no elements, as two empty bounds
(`Call.emptyBounds_not_exact`).
-/

namespace Stanli.Constrain

open Collapse (Desc)

/-- A call of a constraint kernel and of its pullback. -/
inductive Call
  | elementwise (op : Elementwise) (n : ℕ) (x : ℕ → ℝ) (arg : ℕ → Desc (Extended ℝ))
      (adj : ℕ → Option AdjDesc) (rows : ℕ)
  | structured (kind : StructuredKind) (g : Geometry) (x : ℕ → ℝ) (adj : Option AdjDesc)

namespace Call

/-- What lowering emits: arguments of one value or of one value per element that the checks accept, leaves
of the declared sizes, and adjoints as long as their values. -/
def Valid : Call → Prop
  | elementwise op n _ arg adj _ => op.Valid n arg adj
  | structured kind g _ adj => kind.Declares g ∧ Fits (g.nb * g.innerRaw) adj

/-- The forward computes the transform and its log-Jacobian, and the backward adds the vector-Jacobian
product of both. -/
def Exact (F : Elementary ℝ) (S : StanMath ℝ) : Call → Prop
  | elementwise op n x arg adj rows => op.Exact F n x arg adj rows
  | structured kind g x adj => kind.Exact F S g x adj

/-- No argument is empty that is read whatever the number of elements is. -/
def ReadsInside : Call → Prop
  | elementwise op _ _ arg adj _ => op.ReadsInside arg adj
  | structured _ _ _ _ => True

variable {F : Elementary ℝ} {S : StanMath ℝ}

theorem exact_iff (hF : F.Lawful) (hS : S.Documented) (c : Call) (h : c.Valid) :
    c.Exact F S ↔ c.ReadsInside := by
  cases c with
  | elementwise op n x arg adj rows => exact Elementwise.exact_iff_readsInside hF h x rows
  | structured kind g x adj => exact iff_of_true (StructuredKind.exact hF hS h.1 h.2 x) trivial

noncomputable section

/-- The functions of analysis. -/
def realFunctions : Elementary ℝ where
  exp := Real.exp
  log := Real.log
  log1m x := Real.log (1 - x)
  log1pExp x := Real.log (1 + Real.exp x)
  invLogit := Real.sigmoid
  tanh := Real.tanh
  cosh := Real.cosh
  sqrt := Real.sqrt

lemma realFunctions_lawful : realFunctions.Lawful where
  exp _ := rfl
  log _ _ := rfl
  log1m _ _ := rfl
  log1pExp _ := rfl
  invLogit _ := rfl
  tanh _ := rfl
  cosh _ := rfl
  sqrt _ _ := rfl

/-- The transforms as Stan Math documents them. -/
def documentedMath : StanMath ℝ where
  simplexConstrain n y lp := (simplexValue n y, lp + simplexLogJacobian n y)
  orderedConstrain n y lp := (orderedValue false y, lp + orderedLogJacobian false n y)
  positiveOrderedConstrain n y lp := (orderedValue true y, lp + orderedLogJacobian true n y)
  choleskyCorrTape size y seed lp := cholPullback size seed lp y

lemma documentedMath_documented : documentedMath.Documented where
  simplex _ _ _ := ⟨fun _ _ => rfl, rfl⟩
  ordered _ _ _ := ⟨fun _ _ => rfl, rfl⟩
  positiveOrdered _ _ _ := ⟨fun _ _ => rfl, rfl⟩

/-- Three elements above zero, of which the second has no upper bound. -/
def mixedBounds : Call :=
  .elementwise .lu 3 (fun i => i)
    (fun k => if k = 1 then ⟨1, fun _ => .finite 0⟩
      else ⟨3, fun i => if i = 1 then .infinite else .finite 1⟩)
    (fun k => some ⟨10 * k, if k = 1 then 1 else 3⟩) 0

lemma mixedBounds_valid : mixedBounds.Valid where
  shaped k hk hk' := by
    change k ≤ 2 at hk'
    interval_cases k
    · exact Or.inl rfl
    · exact Or.inr rfl
  raw := by
    rintro d ⟨⟩
    rfl
  fits k hk hk' := by
    change k ≤ 2 at hk'
    interval_cases k
    · rintro d ⟨⟩
      rfl
    · rintro d ⟨⟩
      rfl
  accepted := by
    intro j _ k _ _
    change Ordered (.finite 0) (if k = 1 then .infinite else .finite 1)
    split
    · exact ordered_infinite _
    · exact decide_eq_true one_pos

/-- Two correlation matrices with three rows. -/
def twoCorrelations : Call := .structured .choleskyCorr ⟨2, 3, 3, 3⟩ (fun i => i) (some ⟨0, 6⟩)

lemma twoCorrelations_valid : twoCorrelations.Valid := by
  refine ⟨⟨rfl, rfl⟩, ?_⟩
  rintro d ⟨⟩
  rfl

theorem exact_mixedBounds :
    mixedBounds.Exact realFunctions documentedMath ∧ twoCorrelations.Exact realFunctions documentedMath := by
  constructor
  · refine (exact_iff realFunctions_lawful documentedMath_documented _ mixedBounds_valid).2 ⟨?_, Or.inl ?_⟩
    · exact one_ne_zero
    · exact three_ne_zero
  · exact (exact_iff realFunctions_lawful documentedMath_documented _ twoCorrelations_valid).2 trivial

/-- No element, and no bound. -/
def emptyBounds : Call :=
  .elementwise .lu 0 (fun _ => 0) (fun _ => ⟨0, fun _ => .infinite⟩) (fun _ => none) 0

lemma emptyBounds_valid : emptyBounds.Valid where
  shaped _ _ _ := Or.inr rfl
  raw := by rintro d ⟨⟩
  fits _ _ _ := by rintro d ⟨⟩
  accepted := fun j hj => absurd hj (Nat.not_lt_zero j)

/-- The check of the bounds reads the first of none. -/
theorem emptyBounds_not_exact : realFunctions.Lawful ∧ documentedMath.Documented ∧ emptyBounds.Valid ∧
    ¬emptyBounds.Exact realFunctions documentedMath := by
  refine ⟨realFunctions_lawful, documentedMath_documented, emptyBounds_valid, fun h => ?_⟩
  obtain ⟨c', hrun, -⟩ := h ⟨0, 0, 0⟩
  have hempty : cluFwd realFunctions 0 (fun _ => 0) ⟨0, fun _ => .infinite⟩ ⟨0, fun _ => .infinite⟩
      ⟨0, 0, 0⟩ = .error .outOfBounds := Elementwise.cluFwd_empty_lower rfl _ _
  rw [Elementwise.forward, hempty] at hrun
  cases hrun

end

end Call

end Stanli.Constrain
