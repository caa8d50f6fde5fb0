import Mathlib.Algebra.Field.Basic
import Mathlib.Data.Nat.Bitwise
import Stanli.Collapse.ClosedForms
import Stanli.Lib.Broadcast

/-!
# The fused densities

The forward kernels of `density_fused.cpp` for the normal, Cauchy, Student-t, lognormal, beta and gamma
densities.  Each is one function of broadcast views; `fused_lpdf` and `student_t_lpdf_run` call it once
for the sum of all observations, or once per observation.

The code is read over a field, of which no number is a NaN or infinite.  The elementary functions are
parameters (`Elementary`).  A work array only holds a view that is used several times, so that a view
stored in one is the view itself with as many entries as the array has.
-/

namespace Stanli.Densities

open Broadcast
open Collapse (Desc)

variable {R : Type} [Field R] [LinearOrder R]

/-- The elementary functions and the constants the kernels use. -/
structure Elementary (R : Type) where
  log : R → R
  log1p : R → R
  log1m : R → R
  lgamma : R → R
  digamma : R → R
  negLogSqrtTwoPi : R
  logPi : R
  logSqrtPi : R
  logZero : R

/-! ## Checks -/

/-- The checks of Stan Math that the kernels call. -/
inductive Check
  | consistentSizes | notNan | finite | positive | positiveFinite | nonnegative | bounded
deriving DecidableEq, Repr

/-- A check that failed, in which function and on which arguments. -/
structure Refusal where
  check : Check
  function : String
  names : List String
deriving DecidableEq, Repr

/-- No number of a field is a NaN. -/
def isNan (_ : R) : Bool := false

/-- Every number of a field is finite. -/
def isFinite (_ : R) : Bool := true

def anyNan (x : View R) : Bool := !x.all fun v => !isNan v

def allFinite (x : View R) : Bool := x.all isFinite

def allPositive (x : View R) : Bool := x.all fun v => decide (0 < v)

def allPositiveFinite (x : View R) : Bool := allPositive x && allFinite x

def allNonnegative (x : View R) : Bool := x.all fun v => decide (0 ≤ v)

def allUnitInterval (x : View R) : Bool := x.all fun v => decide (0 ≤ v) && decide (v ≤ 1)

/-- `minCoeff`, of an array with entries. -/
def minCoeff (n : ℕ) (f : ℕ → R) : R := (List.range n).foldl (fun m i => min m (f i)) (f 0)

/-- `maxCoeff`, of an array with entries. -/
def maxCoeff (n : ℕ) (f : ℕ → R) : R := (List.range n).foldl (fun m i => max m (f i)) (f 0)

def anyZero : View R → Bool
  | .scalar x => x == 0
  | .array n f => n != 0 && minCoeff n f == 0

def clearFinite : View R → Bool
  | .scalar x => isFinite x
  | .array n f => (View.array n f - View.array n f).sum == 0

def clearPositiveFinite : View R → Bool
  | .scalar x => isFinite x && decide (0 < x)
  | .array n f => clearFinite (.array n f) && (n == 0 || decide (0 < minCoeff n f))

def clearNonnegativeFinite : View R → Bool
  | .scalar x => isFinite x && decide (0 ≤ x)
  | .array n f => clearFinite (.array n f) && (n == 0 || decide (0 ≤ minCoeff n f))

def clearUnitInterval : View R → Bool
  | .scalar x => decide (0 ≤ x) && decide (x ≤ 1)
  | .array n f =>
    clearFinite (.array n f) &&
      (n == 0 || (decide (0 ≤ minCoeff n f) && decide (maxCoeff n f ≤ 1)))

/-- A check on one argument. -/
def check (c : Check) (pass : View R → Bool) (function name : String) (x : View R) :
    Except Refusal Unit :=
  if pass x then .ok () else .error ⟨c, function, [name]⟩

def checkNotNan : String → String → View R → Except Refusal Unit :=
  check .notNan fun x => !anyNan x

def checkFinite : String → String → View R → Except Refusal Unit := check .finite allFinite

def checkPositive : String → String → View R → Except Refusal Unit := check .positive allPositive

def checkPositiveFinite : String → String → View R → Except Refusal Unit :=
  check .positiveFinite allPositiveFinite

def checkNonnegative : String → String → View R → Except Refusal Unit :=
  check .nonnegative allNonnegative

/-- `check_bounded` with the bounds zero and one. -/
def checkBounded : String → String → View R → Except Refusal Unit := check .bounded allUnitInterval

/-- `note_size`: the size of the first array, and whether the later ones have it. -/
def noteSize (s : Option ℕ × Bool) (x : View R) : Option ℕ × Bool :=
  if x.isScalar then s
  else match s.1 with
    | none => (some x.size, s.2)
    | some first => (some first, s.2 && first == x.size)

/-- `check_sizes`, `check_sizes4`. -/
def checkSizes (function : String) (names : List String) (xs : List (View R)) : Except Refusal Unit :=
  if (xs.foldl noteSize (none, true)).2 then .ok () else .error ⟨.consistentSizes, function, names⟩

def sizeZeroAny (xs : List (View R)) : Bool := xs.any fun x => x.size == 0

def maxSizeOf (xs : List (View R)) : ℕ := (xs.map View.size).foldl max 0

/-! ## Results -/

/-- `Out`, `Out4`: where a call leaves the partials of each argument, whether there are any, and the
value.  The first two are places of the scratch. -/
structure Out where
  buf : ℕ → ℕ
  len : ℕ → ℕ
  connected : ℕ
  value : ℕ

/-- The buffers that a kernel writes. -/
structure Cells (R : Type) where
  scratch : ℕ → R
  out : ℕ → R

namespace Cells

/-- Set the value. -/
def setValue (c : Cells R) (o : Out) (x : R) : Cells R :=
  { c with out := Function.update c.out o.value x }

/-- Set the mark that there are partials. -/
def setConnected (c : Cells R) (o : Out) (x : R) : Cells R :=
  { c with scratch := Function.update c.scratch o.connected x }

/-- The range of an argument filled with the entries of a view. -/
def fill (c : Cells R) (o : Out) (k : ℕ) (f : ℕ → R) : Cells R :=
  { c with
    scratch := fun i =>
      if o.buf k ≤ i ∧ i < o.buf k + o.len k then f (i - o.buf k) else c.scratch i }

/-- `put`: a scalar argument gets the sum of its partials. -/
def put (c : Cells R) (o : Out) (k : ℕ) (arg e : View R) : Cells R :=
  if arg.isScalar then { c with scratch := Function.update c.scratch (o.buf k) e.sum }
  else c.fill o k e.entry

end Cells

/-- `zero_result`, `zero_result4`. -/
def zeroResult (nArgs : ℕ) (o : Out) (c : Cells R) : Cells R :=
  ((List.range nArgs).foldl (fun c k => c.fill o k fun _ => 0) (c.setValue o 0)).setConnected o 0

/-- `finish`. -/
def finish (nArgs : ℕ) (o : Out) (logp : R) (mask : ℕ) (c : Cells R) : Cells R :=
  if mask = 0 then (zeroResult nArgs o c).setValue o logp
  else (c.setValue o logp).setConnected o 1

/-- `log_zero_result`. -/
def logZeroResult (F : Elementary R) (nArgs : ℕ) (o : Out) (mask : ℕ) (c : Cells R) : Cells R :=
  if mask = 0 then (zeroResult nArgs o c).setValue o F.logZero
  else
    (((List.range nArgs).foldl (fun c k => if mask.testBit k then c.fill o k fun _ => 0 else c)
      c).setValue o F.logZero).setConnected o 1

/-- `with_ref`: the view, or the work array it is stored in. -/
def withRef (materialized : Bool) (e : View R) (n : ℕ) : View R :=
  if materialized then e.materialize n else e

/-! ## Kernels -/

section Kernels

variable (F : Elementary R)

/-- What `normal_summed` checks. -/
def normalChecks (y mu sigma : View R) : Except Refusal Unit := do
  if !(clearFinite y && clearFinite mu && clearPositiveFinite sigma) &&
      (anyNan y || !allFinite mu || !allPositive sigma) then
    checkNotNan "normal_lpdf" "Random variable" y
    checkFinite "normal_lpdf" "Location parameter" mu
    checkPositive "normal_lpdf" "Scale parameter" sigma

/-- `normal_summed` after the checks. -/
def normalBody (y mu sigma : View R) (mask : ℕ) (propto : Bool) (o : Out) (c : Cells R) : Cells R :=
  let ya := mask.testBit 0
  let ma := mask.testBit 1
  let sa := mask.testBit 2
  let N : R := maxSizeOf [y, mu, sigma]
  let invSigma := sigma⁻¹
  let yScaled := (y - mu) * invSigma
  let yScaledSq := yScaled * yScaled
  let logp := -(1 / 2) * yScaledSq.sum
  let logp := if !propto then logp + F.negLogSqrtTwoPi * N else logp
  let logp := if !propto || sa then logp - (sigma.map F.log).sum * N / sigma.size else logp
  let scaledDiff := invSigma * yScaled
  let c := if ya then c.put o 0 y (-scaledDiff) else c
  let c := if sa then c.put o 2 sigma (invSigma * yScaledSq - invSigma) else c
  let c := if ma then c.put o 1 mu scaledDiff else c
  finish 3 o logp mask c

/-- `normal_summed`. -/
def normalSummed (y mu sigma : View R) (mask : ℕ) (propto : Bool) (o : Out) (c : Cells R) :
    Except Refusal (Cells R) := do
  checkSizes "normal_lpdf" ["Random variable", "Location parameter", "Scale parameter"] [y, mu, sigma]
  normalChecks y mu sigma
  if sizeZeroAny [y, mu, sigma] || (propto && mask == 0) then return zeroResult 3 o c
  else return normalBody F y mu sigma mask propto o c

/-- What `cauchy_summed` checks. -/
def cauchyChecks (y mu sigma : View R) : Except Refusal Unit := do
  if !(clearFinite y && clearFinite mu && clearPositiveFinite sigma) &&
      (anyNan y || !allFinite mu || !allPositiveFinite sigma) then
    checkNotNan "cauchy_lpdf" "Random variable" y
    checkFinite "cauchy_lpdf" "Location parameter" mu
    checkPositiveFinite "cauchy_lpdf" "Scale parameter" sigma

/-- `cauchy_summed` after the checks. -/
def cauchyBody (y mu sigma : View R) (mask : ℕ) (propto : Bool) (o : Out) (c : Cells R) : Cells R :=
  let ya := mask.testBit 0
  let ma := mask.testBit 1
  let sa := mask.testBit 2
  let N := maxSizeOf [y, mu, sigma]
  let invSigma := sigma⁻¹
  let yMinusMu := y - mu
  let logp := 0 - (((yMinusMu * invSigma) * (yMinusMu * invSigma)).map F.log1p).sum
  let logp := if !propto then logp - N * F.logPi else logp
  let logp := if !propto || sa then logp - (sigma.map F.log).sum * N / sigma.size else logp
  let sigmaSquared := sigma * sigma
  let yMinusMuSquared := yMinusMu * yMinusMu
  let expr := View.scalar 2 * yMinusMu / (sigmaSquared + yMinusMuSquared)
  let muDeriv := withRef (ya && ma) expr N
  let c := if ya then c.put o 0 y (-muDeriv) else c
  let c := if ma then c.put o 1 mu muDeriv else c
  let c :=
    if sa then
      c.put o 2 sigma ((yMinusMuSquared - sigmaSquared) * invSigma / (sigmaSquared + yMinusMuSquared))
    else c
  finish 3 o logp mask c

/-- `cauchy_summed`. -/
def cauchySummed (y mu sigma : View R) (mask : ℕ) (propto : Bool) (o : Out) (c : Cells R) :
    Except Refusal (Cells R) := do
  checkSizes "cauchy_lpdf" ["Random variable", "Location parameter", "Scale parameter"] [y, mu, sigma]
  if sizeZeroAny [y, mu, sigma] || (propto && mask == 0) then return zeroResult 3 o c
  else do
    cauchyChecks y mu sigma
    return cauchyBody F y mu sigma mask propto o c

/-- What `lognormal_summed` checks. -/
def lognormalChecks (y mu sigma : View R) : Except Refusal Unit := do
  if !(clearNonnegativeFinite y && clearFinite mu && clearPositiveFinite sigma) &&
      (!allNonnegative y || !allFinite mu || !allPositiveFinite sigma) then
    checkNonnegative "lognormal_lpdf" "Random variable" y
    checkFinite "lognormal_lpdf" "Location parameter" mu
    checkPositiveFinite "lognormal_lpdf" "Scale parameter" sigma

/-- `lognormal_summed` after the checks. -/
def lognormalBody (y mu sigma : View R) (mask : ℕ) (propto : Bool) (o : Out) (c : Cells R) :
    Cells R :=
  let ya := mask.testBit 0
  let ma := mask.testBit 1
  let sa := mask.testBit 2
  let N := maxSizeOf [y, mu, sigma]
  let invSigma := sigma⁻¹
  let invSigmaSq := invSigma * invSigma
  let logY := withRef (!propto || ya) (y.map F.log) N
  let logyMMu := (logY - mu).materialize N
  let logp := N * F.negLogSqrtTwoPi - 1 / 2 * (logyMMu * logyMMu * invSigmaSq).sum
  let logp := if !propto || sa then logp - (sigma.map F.log).sum * N / sigma.size else logp
  let logp := if !propto || ya then logp - logY.sum * N / y.size else logp
  let active := ya.toNat + ma.toNat + sa.toNat
  let logyMMuDivSigma := withRef (decide (2 ≤ active)) (logyMMu * invSigmaSq) N
  let c := if ya then c.put o 0 y (-(View.scalar 1 + logyMMuDivSigma) / y) else c
  let c := if ma then c.put o 1 mu logyMMuDivSigma else c
  let c :=
    if sa then c.put o 2 sigma ((logyMMuDivSigma * logyMMu - View.scalar 1) * invSigma) else c
  finish 3 o logp mask c

/-- `lognormal_summed`. -/
def lognormalSummed (y mu sigma : View R) (mask : ℕ) (propto : Bool) (o : Out) (c : Cells R) :
    Except Refusal (Cells R) := do
  checkSizes "lognormal_lpdf" ["Random variable", "Location parameter", "Scale parameter"]
    [y, mu, sigma]
  lognormalChecks y mu sigma
  if sizeZeroAny [y, mu, sigma] || (propto && mask == 0) then return zeroResult 3 o c
  else if anyZero y then return logZeroResult F 3 o mask c
  else return lognormalBody F y mu sigma mask propto o c

/-- What `beta_summed` checks. -/
def betaChecks (y alpha beta : View R) : Except Refusal Unit := do
  if !(clearPositiveFinite alpha && clearPositiveFinite beta && clearUnitInterval y) &&
      (!allPositiveFinite alpha || !allPositiveFinite beta || !allUnitInterval y) then
    checkPositiveFinite "beta_lpdf" "First shape parameter" alpha
    checkPositiveFinite "beta_lpdf" "Second shape parameter" beta
    checkBounded "beta_lpdf" "Random variable" y

/-- `beta_summed` after the checks. -/
def betaBody (y alpha beta : View R) (mask : ℕ) (propto : Bool) (o : Out) (c : Cells R) : Cells R :=
  let ya := mask.testBit 0
  let aa := mask.testBit 1
  let ba := mask.testBit 2
  let N := maxSizeOf [y, alpha, beta]
  let logY := (y.map F.log).materialize N
  let log1mY := (y.map F.log1m).materialize N
  let one := View.scalar 1
  let logp := 0
  let logp := if !propto || aa then logp - (alpha.map F.lgamma).sum * N / alpha.size else logp
  let logp := if !propto || ba then logp - (beta.map F.lgamma).sum * N / beta.size else logp
  let logp :=
    if !propto || ya || aa then
      logp + ((alpha - one) * logY).sum * N / (max y.size alpha.size : ℕ)
    else logp
  let logp :=
    if !propto || ya || ba then
      logp + ((beta - one) * log1mY).sum * N / (max y.size beta.size : ℕ)
    else logp
  let c := if ya then c.put o 0 y ((alpha - one) / y + (beta - one) / (y - one)) else c
  let alphaBeta := alpha + beta
  let logp :=
    if !propto || aa || ba then
      logp + (alphaBeta.map F.lgamma).sum * N / (max alpha.size beta.size : ℕ)
    else logp
  let digammaAlphaBeta := withRef (aa && ba) (alphaBeta.map F.digamma) N
  let c := if aa then c.put o 1 alpha (logY + digammaAlphaBeta - alpha.map F.digamma) else c
  let c := if ba then c.put o 2 beta (log1mY + digammaAlphaBeta - beta.map F.digamma) else c
  finish 3 o logp mask c

/-- `beta_summed`. -/
def betaSummed (y alpha beta : View R) (mask : ℕ) (propto : Bool) (o : Out) (c : Cells R) :
    Except Refusal (Cells R) := do
  checkSizes "beta_lpdf" ["Random variable", "First shape parameter", "Second shape parameter"]
    [y, alpha, beta]
  if sizeZeroAny [y, alpha, beta] then return zeroResult 3 o c
  else do
    betaChecks y alpha beta
    if propto && mask == 0 then return zeroResult 3 o c
    else return betaBody F y alpha beta mask propto o c

/-- What `gamma_summed` checks. -/
def gammaChecks (y alpha beta : View R) : Except Refusal Unit := do
  if !(clearPositiveFinite y && clearPositiveFinite alpha && clearPositiveFinite beta) &&
      (!allPositiveFinite y || !allPositiveFinite alpha || !allPositiveFinite beta) then
    checkPositiveFinite "gamma_lpdf" "Random variable" y
    checkPositiveFinite "gamma_lpdf" "Shape parameter" alpha
    checkPositiveFinite "gamma_lpdf" "Inverse scale parameter" beta

/-- `gamma_summed` after the checks. -/
def gammaBody (y alpha beta : View R) (mask : ℕ) (propto : Bool) (o : Out) (c : Cells R) : Cells R :=
  let ya := mask.testBit 0
  let aa := mask.testBit 1
  let ba := mask.testBit 2
  let N := maxSizeOf [y, alpha, beta]
  let one := View.scalar 1
  let logp := 0
  let logp := if !propto || aa then -(alpha.map F.lgamma).sum * N / alpha.size else logp
  let logY := withRef (!aa) (y.map F.log) N
  let logBeta := withRef aa (beta.map F.log) N
  let logp :=
    if !propto || aa || ba then
      logp + (alpha * logBeta).sum * N / (max alpha.size beta.size : ℕ)
    else logp
  let c := if aa then c.put o 1 alpha (logBeta + logY - alpha.map F.digamma) else c
  let logp :=
    if !propto || ya || aa then
      logp + ((alpha - one) * logY).sum * N / (max alpha.size y.size : ℕ)
    else logp
  let logp :=
    if !propto || ya || ba then logp - (beta * y).sum * N / (max beta.size y.size : ℕ) else logp
  let c := if ya then c.put o 0 y ((alpha - one) / y - beta) else c
  let c := if ba then c.put o 2 beta (alpha / beta - y) else c
  finish 3 o logp mask c

/-- `gamma_summed`. -/
def gammaSummed (y alpha beta : View R) (mask : ℕ) (propto : Bool) (o : Out) (c : Cells R) :
    Except Refusal (Cells R) := do
  checkSizes "gamma_lpdf" ["Random variable", "Shape parameter", "Inverse scale parameter"]
    [y, alpha, beta]
  gammaChecks y alpha beta
  if sizeZeroAny [y, alpha, beta] || (propto && mask == 0) then return zeroResult 3 o c
  else return gammaBody F y alpha beta mask propto o c

/-- What `student_t_summed` checks. -/
def studentTChecks (y nu mu sigma : View R) : Except Refusal Unit := do
  if !(clearFinite y && clearPositiveFinite nu && clearFinite mu && clearPositiveFinite sigma) &&
      (anyNan y || !allPositiveFinite nu || !allFinite mu || !allPositiveFinite sigma) then
    checkNotNan "student_t_lpdf" "Random variable" y
    checkPositiveFinite "student_t_lpdf" "Degrees of freedom parameter" nu
    checkFinite "student_t_lpdf" "Location parameter" mu
    checkPositiveFinite "student_t_lpdf" "Scale parameter" sigma

/-- `student_t_summed` after the checks. -/
def studentTBody (y nu mu sigma : View R) (mask : ℕ) (propto : Bool) (o : Out) (c : Cells R) :
    Cells R :=
  let ya := mask.testBit 0
  let na := mask.testBit 1
  let ma := mask.testBit 2
  let sa := mask.testBit 3
  let N := maxSizeOf [y, nu, mu, sigma]
  let half := View.scalar (1 / 2 : R)
  let one := View.scalar (1 : R)
  let halfNu := half * nu
  let squareYScaled := (y - mu) / sigma * ((y - mu) / sigma)
  let sqn := (squareYScaled / nu).materialize N
  let log1pVal := withRef na (sqn.map F.log1p) N
  let logp := -((halfNu + half) * log1pVal).sum
  let logp := if !propto then logp - F.logSqrtPi * N else logp
  let logp :=
    if !propto || na then
      logp + (((halfNu + half).map F.lgamma).sum - (halfNu.map F.lgamma).sum -
        1 / 2 * (nu.map F.log).sum) * N / nu.size
    else logp
  let logp := if !propto || sa then logp - (sigma.map F.log).sum * N / sigma.size else logp
  let squareSigma := sigma * sigma
  let derivYMu := withRef (ya && ma) ((nu + one) * (y - mu) / ((one + sqn) * squareSigma * nu)) N
  let c := if ya then c.put o 0 y (-derivYMu) else c
  let c := if ma then c.put o 2 mu derivYMu else c
  let repDeriv := withRef (na && sa) ((nu + one) * sqn / (one + sqn) - one) N
  let c :=
    if na then
      c.put o 1 nu (half * ((halfNu + half).map F.digamma - halfNu.map F.digamma - log1pVal +
        repDeriv / nu))
    else c
  let c := if sa then c.put o 3 sigma (repDeriv / sigma) else c
  finish 4 o logp mask c

/-- `student_t_summed`. -/
def studentTSummed (y nu mu sigma : View R) (mask : ℕ) (propto : Bool) (o : Out) (c : Cells R) :
    Except Refusal (Cells R) := do
  checkSizes "student_t_lpdf" ["Random variable", "Degrees of freedom parameter",
    "Location parameter", "Scale parameter"] [y, nu, mu, sigma]
  studentTChecks y nu mu sigma
  if sizeZeroAny [y, nu, mu, sigma] || (propto && mask == 0) then return zeroResult 4 o c
  else return studentTBody F y nu mu sigma mask propto o c

end Kernels

/-! ## Calls -/

/-- `with_view`: a buffer of length one is a scalar. -/
def withView (d : Desc R) : View R := if d.len = 1 then .scalar (d.data 0) else .array d.len d.data

/-- The lengths of the arguments before one of them. -/
def argOffset (len : ℕ → ℕ) (k : ℕ) : ℕ := ∑ i ∈ Finset.range k, len i

/-- A kernel on its views: the mask of the active arguments, the propto bit, and where the results go. -/
abbrev Kernel (R : Type) := (ℕ → View R) → ℕ → Bool → Out → Cells R → Except Refusal (Cells R)

/-- Where the observation `n` of `N` leaves its results. -/
def elementOut (nArgs N n : ℕ) : Out where
  buf k := k * N + n
  len _ := 1
  connected := nArgs * N + n
  value := n

/-- Where a sum leaves its results. -/
def summedOut (nArgs : ℕ) (len : ℕ → ℕ) : Out where
  buf := argOffset len
  len := len
  connected := argOffset len nArgs
  value := 0

/-- The active arguments that a variant names; none given means all. -/
def activityMask (nArgs variant : ℕ) : ℕ := if variant = 0 then 2 ^ nArgs - 1 else variant &&& 0x3f

/-- The propto bit, which a build with `STANLI_LITE_LP` does not read. -/
def proptoBit (lite : Bool) (variant : ℕ) : Bool := !lite && variant.testBit 7

/-- `fused_lpdf`, `student_t_lpdf_run`: one call for each observation, or one for their sum. -/
def lpdfRun (nArgs : ℕ) (op : Kernel R) (lite : Bool) (variant : ℕ) (ins : ℕ → Desc R) (outLen : ℕ)
    (c : Cells R) : Except Refusal (Cells R) :=
  if variant.testBit 6 then
    (List.range outLen).foldlM (fun c n =>
      op (fun k => .scalar ((ins k).at_ n)) (variant &&& 0x3f) (proptoBit lite variant)
        (elementOut nArgs outLen n) c) c
  else
    op (fun k => withView (ins k)) (activityMask nArgs variant) (proptoBit lite variant)
      (summedOut nArgs fun k => (ins k).len) c

def fusedLpdf (op : Kernel R) : Bool → ℕ → (ℕ → Desc R) → ℕ → Cells R → Except Refusal (Cells R) :=
  lpdfRun 3 op

def normalOp (F : Elementary R) : Kernel R := fun x => normalSummed F (x 0) (x 1) (x 2)

def cauchyOp (F : Elementary R) : Kernel R := fun x => cauchySummed F (x 0) (x 1) (x 2)

def lognormalOp (F : Elementary R) : Kernel R := fun x => lognormalSummed F (x 0) (x 1) (x 2)

def betaOp (F : Elementary R) : Kernel R := fun x => betaSummed F (x 0) (x 1) (x 2)

def gammaOp (F : Elementary R) : Kernel R := fun x => gammaSummed F (x 0) (x 1) (x 2)

def studentTDispatch (F : Elementary R) : Kernel R :=
  fun x => studentTSummed F (x 0) (x 1) (x 2) (x 3)

def studentTLpdfRun (F : Elementary R) :
    Bool → ℕ → (ℕ → Desc R) → ℕ → Cells R → Except Refusal (Cells R) :=
  lpdfRun 4 (studentTDispatch F)

def normalLpdfFused (F : Elementary R) := fusedLpdf (normalOp F)

def cauchyLpdfFused (F : Elementary R) := fusedLpdf (cauchyOp F)

def lognormalLpdfFused (F : Elementary R) := fusedLpdf (lognormalOp F)

def betaLpdfFused (F : Elementary R) := fusedLpdf (betaOp F)

def gammaLpdfFused (F : Elementary R) := fusedLpdf (gammaOp F)

def studentTLpdfFused (F : Elementary R) := studentTLpdfRun F

/-- The densities with a fused kernel. -/
inductive FusedDensity
  | normal | cauchy | studentT | lognormal | beta | gamma
deriving DecidableEq, Repr

namespace FusedDensity

/-- The number of arguments, the variate being the first. -/
def arity : FusedDensity → ℕ
  | studentT => 4
  | _ => 3

/-- What the kernel of a density does in one call. -/
def op (F : Elementary R) : FusedDensity → Kernel R
  | normal => normalOp F
  | cauchy => cauchyOp F
  | studentT => studentTDispatch F
  | lognormal => lognormalOp F
  | beta => betaOp F
  | gamma => gammaOp F

/-- The forward kernel of a density. -/
def forward (F : Elementary R) :
    FusedDensity → Bool → ℕ → (ℕ → Desc R) → ℕ → Cells R → Except Refusal (Cells R)
  | normal => normalLpdfFused F
  | cauchy => cauchyLpdfFused F
  | studentT => studentTLpdfFused F
  | lognormal => lognormalLpdfFused F
  | beta => betaLpdfFused F
  | gamma => gammaLpdfFused F

lemma forward_eq (F : Elementary R) (d : FusedDensity) : d.forward F = lpdfRun d.arity (d.op F) := by
  cases d <;> rfl

end FusedDensity

end Stanli.Densities
