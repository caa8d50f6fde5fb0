import Mathlib.Algebra.Field.Defs
import Mathlib.Algebra.Order.Ring.Defs
import Mathlib.Data.List.GetD
import Mathlib.Data.UInt
import Mathlib.Logic.Function.Basic
import Stanli.Lib.Accumulate

/-!
# The closed forms of the observation collapse

`grouped_statistics` and `linear_gaussian_data` of `collapse_linear.cpp`, which prepare the data of the
collapsed densities, and `normal_grouped_fwd` and `linear_gaussian_fwd` of `collapse_kernels.cpp`, which
evaluate them.  The code is read over a field: what it does about rounding (the compensated sums, the
residual of the centre) is kept, and is exact there.  The logarithm, the square root and the constant of
the density are parameters, as are the two matrix decompositions of Eigen.
-/

namespace Stanli.Collapse

variable {α : Type*} [Field α]

/-! ## Compensated sums -/

/-- A sum that keeps its rounding errors. -/
structure Compensated (α : Type*) [Field α] where
  hi : α := 0
  lo : α := 0

namespace Compensated

def add (c : Compensated α) (x : α) : Compensated α :=
  let s := c.hi + x
  let v := s - c.hi
  ⟨s, c.lo + ((c.hi - (s - v)) + (x - v))⟩

def addProduct (c : Compensated α) (x y : α) : Compensated α :=
  let p := x * y
  (c.add p).add (x * y + -p)

def value (c : Compensated α) : α := c.hi + c.lo

end Compensated

/-! ## Grouped statistics -/

/-- An observation with its group. -/
abbrev Observation (α : Type*) := α × ℕ

/-- `count` and `sum` after the first loop. -/
def countLoop (obs : List (Observation α)) : (ℕ → α) × (ℕ → Compensated α) :=
  obs.foldl
    (fun st o => (Function.update st.1 o.2 (st.1 o.2 + 1),
      Function.update st.2 o.2 ((st.2 o.2).add o.1)))
    (fun _ => 0, fun _ => {})

/-- `first` and `second` after the loop over the residuals. -/
def residualLoop (centre : ℕ → α) (obs : List (Observation α)) :
    (ℕ → Compensated α) × (ℕ → Compensated α) :=
  obs.foldl
    (fun st o =>
      let s := o.1 - centre o.2
      let v := s - o.1
      let e := (o.1 - (s - v)) - (centre o.2 + v)
      (Function.update st.1 o.2 (((st.1 o.2).add s).add e),
        Function.update st.2 o.2 (((st.2 o.2).addProduct s s).add (2 * s * e))))
    (fun _ => {}, fun _ => {})

/-- The four columns of `grouped_statistics` around a centre. -/
def groupedStatisticsAt (centre : ℕ → α) (obs : List (Observation α)) (groups : ℕ) : List α :=
  (List.range groups).map (countLoop obs).1 ++ (List.range groups).map centre ++
    (List.range groups).map (fun k => ((residualLoop centre obs).1 k).value) ++
    (List.range groups).map fun k => ((residualLoop centre obs).2 k).value

/-- The mean of each group. -/
def groupMean (obs : List (Observation α)) (k : ℕ) : α :=
  ((countLoop obs).2 k).value / (countLoop obs).1 k

/-- `grouped_statistics`. -/
def groupedStatistics (y : List α) (groupOf : List ℕ) (groups : ℕ) : List α :=
  groupedStatisticsAt (groupMean (y.zip groupOf)) (y.zip groupOf) groups

/-- What a collapsed term passes on for its variate: for a lognormal the logarithms, with the constant
that makes up for them. -/
def collapsedVariate (log : α → α) (lognormal : Bool) (y : List α) : List α × α :=
  let values := if lognormal then y.map log else y
  let logY : Compensated α := if lognormal then values.foldl Compensated.add {} else {}
  (values, -logY.value)

/-- The columns, as the kernels and `linear_gaussian_data` find them. -/
structure Statistics (α : Type*) where
  groups : ℕ
  count : ℕ → α
  centre : ℕ → α
  offset : ℕ → α
  squares : ℕ → α

def Statistics.ofList (groups : ℕ) (data : List α) : Statistics α where
  groups := groups
  count g := data.getD g 0
  centre g := data.getD (groups + g) 0
  offset g := data.getD (groups + groups + g) 0
  squares g := data.getD (groups + groups + groups + g) 0

/-! ## Kernel arguments -/

/-- `Desc`: a buffer with its length. -/
structure Desc (α : Type*) where
  len : ℕ
  data : ℕ → α

/-- The place of group `g`'s value: one for all, or one per group. -/
def Desc.slot (d : Desc α) (g : ℕ) : ℕ := if d.len = 1 then 0 else g

def Desc.at_ (d : Desc α) (g : ℕ) : α := d.data (d.slot g)

/-- The buffer with another value in one place. -/
def Desc.set (d : Desc α) (k : ℕ) (x : α) : Desc α := { d with data := Function.update d.data k x }

def kGroupedStatColumns : ℕ := 4

def kGroupedLocationActive : UInt8 := 1

def kGroupedScaleActive : UInt8 := 2

def kGroupedLognormal : UInt8 := 4

def kGroupedGlm : UInt8 := 8

def kGroupedPropto : UInt8 := 128

/-- `(variant & bit) != 0`. -/
def hasBit (variant bit : UInt8) : Bool := variant &&& bit != 0

/-- `check_arg` with `check_positive`.  Exact numbers are finite. -/
def checkPositive [LinearOrder α] (function name : String) (arg : Desc α) : Except String Unit :=
  if (List.range (if arg.len = 1 then 1 else arg.len)).all (fun k => decide (0 < arg.data k)) then
    .ok ()
  else .error (function ++ ": " ++ name ++ " is not positive")

/-- What a density kernel leaves: its value and its scratch. -/
structure KernelValue (α : Type*) where
  value : α
  scratch : List α

section Kernels

variable [LinearOrder α] (log : α → α) (negLogSqrtTwoPi : α)

/-- The log density from its sums: the log-scale term and the constant stay as Stan keeps them. -/
def densityValue (variant : UInt8) (quadratic logScale total constant : α) : α :=
  let propto := hasBit variant kGroupedPropto
  let lp := -(1 / 2) * quadratic
  let lp := if !propto || hasBit variant kGroupedScaleActive then lp - logScale else lp
  let lp := if !propto || hasBit variant kGroupedLognormal then lp + total * negLogSqrtTwoPi else lp
  lp + constant

/-! ## `normal_grouped_fwd` -/

/-- The accumulators of the loop over the groups. -/
structure GroupedSums (α : Type*) where
  quadratic : α
  logScale : α
  total : α
  dMu : ℕ → α
  dSigma : ℕ → α

/-- One group. -/
def groupedStep (st : Statistics α) (mu sigma : Desc α) (acc : GroupedSums α) (g : ℕ) :
    GroupedSums α :=
  let s := sigma.at_ g
  let inv := 1 / s
  let inv2 := inv * inv
  let r := st.centre g - mu.at_ g
  let q := st.squares g + 2 * r * st.offset g + st.count g * r * r
  { quadratic := acc.quadratic + q * inv2
    logScale := if sigma.len ≠ 1 then acc.logScale + st.count g * log s else acc.logScale
    total := acc.total + st.count g
    dMu := Function.update acc.dMu (mu.slot g)
      (acc.dMu (mu.slot g) + (st.count g * r + st.offset g) * inv2)
    dSigma := Function.update acc.dSigma (sigma.slot g)
      (acc.dSigma (sigma.slot g) + (q * inv2 * inv - st.count g * inv)) }

def groupedSums (st : Statistics α) (mu sigma : Desc α) : GroupedSums α :=
  (List.range st.groups).foldl (groupedStep log st mu sigma) ⟨0, 0, 0, fun _ => 0, fun _ => 0⟩

/-- `normal_grouped_fwd`. -/
def normalGroupedFwd (variant : UInt8) (statistics : List α) (mu sigma : Desc α) (constant : α) :
    Except String (KernelValue α) :=
  let function := if hasBit variant kGroupedLognormal then "lognormal_lpdf" else "normal_lpdf"
  match checkPositive function "Scale parameter" sigma with
  | .error e => .error e
  | .ok _ =>
    let acc := groupedSums log
      (Statistics.ofList (statistics.length / kGroupedStatColumns) statistics) mu sigma
    let logScale := if sigma.len = 1 then acc.total * log (sigma.data 0) else acc.logScale
    .ok
      { value := densityValue negLogSqrtTwoPi variant acc.quadratic logScale acc.total constant
        scratch := (List.range mu.len).map acc.dMu ++ (List.range sigma.len).map acc.dSigma }

end Kernels

/-! ## Linear forms -/

/-- A group's location: `constant + sum(coefficient * theta[index])`. -/
structure LinearRow (α : Type*) where
  constant : α
  terms : List (ℕ × α)

/-- The row scaled by the square root of its count: one row of the least-squares matrix. -/
def weightedRow (sqrt : α → α) (count : α) (row : LinearRow α) : ℕ → α :=
  row.terms.foldl (fun a term => Function.update a term.1 (a term.1 + sqrt count * term.2)) fun _ => 0

/-- What one row adds to `base` and to `linear`. -/
def linearStep (st : Statistics α) (t : ℕ → α) (acc : Compensated α × (ℕ → Compensated α) × α)
    (entry : LinearRow α × ℕ) : Compensated α × (ℕ → Compensated α) × α :=
  let row := entry.1
  let g := entry.2
  let residual := row.terms.foldl (fun c term => c.addProduct (-term.2) (t term.1))
    ((({} : Compensated α).add (st.centre g)).add (-row.constant))
  let r := residual.value
  (((acc.1.add (st.squares g)).addProduct (st.count g * r) r).addProduct (2 * st.offset g) r,
    row.terms.foldl (fun linear term => Function.update linear term.1
      (((linear term.1).addProduct (st.count g * term.2) r).addProduct (st.offset g) term.2)) acc.2.1,
    acc.2.2 + st.count g)

/-- The rows of an upper triangle, one after the other. -/
def packedTriangle (p : ℕ) (factored : ℕ → ℕ → α) : List α :=
  (List.range p).flatMap fun i => (List.range' i (p - i)).map (factored i)

/-- `linear_gaussian_data`.  `solve` is the least-squares solution and `qr` the triangular factor. -/
def linearGaussianData (sqrt : α → α) (solve : (ℕ → ℕ → α) → (ℕ → α) → ℕ → α)
    (qr : (ℕ → ℕ → α) → ℕ → ℕ → α) (p : ℕ) (rows : List (LinearRow α)) (statistics : List α) :
    List α :=
  let groups := rows.length
  if groups < p ∨ p < 1 then []
  else
    let st := Statistics.ofList groups statistics
    let row g := rows.getD g ⟨0, []⟩
    let a := fun g => weightedRow sqrt (st.count g) (row g)
    let rhs := fun g => sqrt (st.count g) * (st.centre g - (row g).constant)
    let t := solve a rhs
    let acc := rows.zipIdx.foldl (linearStep st t) ({}, fun _ => {}, 0)
    [acc.1.value, acc.2.2] ++ (List.range p).map t ++
      (List.range p).map (fun j => (acc.2.1 j).value) ++ packedTriangle p (qr a)

section LinearKernel

variable [LinearOrder α] (log : α → α) (negLogSqrtTwoPi : α)

def kLinearGaussianHeader : ℕ := 2

/-- One row of the triangle: what is left of the rows, `q`, and `R' (R u)` so far. -/
def triangleStep (p : ℕ) (u : ℕ → α) (st : List α × α × (ℕ → α)) (i : ℕ) : List α × α × (ℕ → α) :=
  let row := st.1
  let acc := (List.range' i (p - i)).foldl (fun acc j => acc + row.getD (j - i) 0 * u j) 0
  (row.drop (p - i), st.2.1 + acc * acc,
    (List.range' i (p - i)).foldl
      (fun d j => Function.update d j (d j + row.getD (j - i) 0 * acc)) st.2.2)

/-- `linear_gaussian_fwd`. -/
def linearGaussianFwd (variant : UInt8) (data : List α) (theta sigma : Desc α) (constant : α) :
    Except String (KernelValue α) :=
  let p := theta.len
  let base := data.getD 0 0
  let total := data.getD 1 0
  let centre j := data.getD (kLinearGaussianHeader + j) 0
  let linear j := data.getD (kLinearGaussianHeader + p + j) 0
  let function := if hasBit variant kGroupedGlm then "normal_id_glm_lpdf"
    else if hasBit variant kGroupedLognormal then "lognormal_lpdf" else "normal_lpdf"
  let name := if hasBit variant kGroupedGlm then "Scale vector" else "Scale parameter"
  match checkPositive function name { sigma with len := 1 } with
  | .error e => .error e
  | .ok _ =>
    let u j := theta.data j - centre j
    let q := (List.range p).foldl (fun q j => q - 2 * u j * linear j) base
    let acc := (List.range p).foldl (triangleStep p u)
      (data.drop (kLinearGaussianHeader + p + p), q, fun _ => 0)
    let s := sigma.data 0
    let inv := 1 / s
    let inv2 := inv * inv
    let dTheta j := (linear j - acc.2.2 j) * inv2
    let dSigma := acc.2.1 * inv2 * inv - total * inv
    .ok
      { value := densityValue negLogSqrtTwoPi variant (acc.2.1 * inv2) (total * log s) total constant
        scratch := (List.range p).map dTheta ++ [dSigma] }

end LinearKernel

end Stanli.Collapse
