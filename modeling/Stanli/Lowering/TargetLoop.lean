import Mathlib.Algebra.Ring.Defs
import Mathlib.Algebra.BigOperators.Group.List.Defs
import Stanli.Mir.Tree
import Stanli.Lib.Checks

/-!
# Target loops

A `for` loop that does nothing but add terms to the target, none of which mentions the iterator, is
lowered once, under a scale that is multiplied by its trip count.  The lowering here is read through the
values the emitted ops compute: a slot is its value, the list of target terms is what the density sums,
and the ring is arbitrary, so that it may be the functions of the parameters or their dual numbers.
-/

namespace Stanli

namespace TargetLoop

open Mir

/-! ## Callable transforms -/

inductive TransformDirection
  | constrain | jacobian | unconstrain
  deriving DecidableEq

inductive CallableTransformKind
  | lower | upper | lowerUpper | offsetMultiplier | ordered | positiveOrdered | simplex
  | stochasticColumn | stochasticRow | sumToZero | unitVector | choleskyFactorCorr | corrMatrix
  | covMatrix | choleskyFactorCov
  deriving DecidableEq

structure CallableTransformSpec where
  kind : CallableTransformKind
  direction : TransformDirection
  arity : ℕ
  structured : Bool
  deriving DecidableEq

/-- The name without the ending, if it has it. -/
def transformStem (name ending : Bytes) : Option Bytes :=
  if ending <:+ name then some (name.take (name.length - ending.length)) else none

/-- The transform a stem names, with the arguments it takes and whether it is structured. -/
def transformOfStem (stem : Bytes) : Option (CallableTransformKind × ℕ × Bool) :=
  if stem = ascii "lower_bound" then some (.lower, 2, false)
  else if stem = ascii "upper_bound" then some (.upper, 2, false)
  else if stem = ascii "lower_upper_bound" then some (.lowerUpper, 3, false)
  else if stem = ascii "offset_multiplier" then some (.offsetMultiplier, 3, false)
  else if stem = ascii "ordered" then some (.ordered, 1, true)
  else if stem = ascii "positive_ordered" then some (.positiveOrdered, 1, true)
  else if stem = ascii "simplex" then some (.simplex, 1, true)
  else if stem = ascii "stochastic_column" then some (.stochasticColumn, 1, true)
  else if stem = ascii "stochastic_row" then some (.stochasticRow, 1, true)
  else if stem = ascii "sum_to_zero" then some (.sumToZero, 1, true)
  else if stem = ascii "unit_vector" then some (.unitVector, 1, true)
  else if stem = ascii "cholesky_factor_corr" then some (.choleskyFactorCorr, 2, true)
  else if stem = ascii "corr_matrix" then some (.corrMatrix, 2, true)
  else if stem = ascii "cov_matrix" then some (.covMatrix, 2, true)
  else if stem = ascii "cholesky_factor_cov" then some (.choleskyFactorCov, 3, true)
  else none

def transformNamed (stem : Bytes) (direction : TransformDirection) : Option CallableTransformSpec :=
  (transformOfStem stem).map fun t =>
    { kind := t.1
      direction
      arity := if t.2.2 ∧ direction = .unconstrain then 1 else t.2.1
      structured := t.2.2 }

def callableTransform (name : Bytes) : Option CallableTransformSpec :=
  match transformStem name (ascii "_jacobian") with
  | some stem => transformNamed stem .jacobian
  | none =>
    match transformStem name (ascii "_constrain") with
    | some stem => transformNamed stem .constrain
    | none =>
      match transformStem name (ascii "_unconstrain") with
      | some stem => transformNamed stem .unconstrain
      | none => none

/-! ## Questions about expressions -/

mutual

/-- `expr_references`. -/
def references (name : Bytes) : Expr → Bool
  | ⟨kind, n, _, _, _, _, _, args, _, _, _, _, _⟩ =>
    (kind == .var && n == name) || anyReferences name args

def anyReferences (name : Bytes) : List Expr → Bool
  | [] => false
  | e :: es => references name e || anyReferences name es

end

mutual

/-- `expr_has_jacobian`. -/
def exprHasJacobian : Expr → Bool
  | ⟨kind, name, fnLib, _, _, _, _, args, _, _, _, _, _⟩ =>
    (kind == .funApp &&
      ((callableTransform name).any (fun spec => spec.direction == .jacobian) ||
        (fnLib == .userDefined && (transformStem name (ascii "_jacobian")).isSome))) ||
      anyHasJacobian args

def anyHasJacobian : List Expr → Bool
  | [] => false
  | e :: es => exprHasJacobian e || anyHasJacobian es

end

def algebraCalls : List Bytes :=
  [ascii "algebra_solver", ascii "algebra_solver_newton", ascii "solve_newton", ascii "solve_powell",
    ascii "solve_newton_tol", ascii "solve_powell_tol"]

def quadratureCalls : List Bytes :=
  [ascii "integrate_1d", ascii "integrate_1d_double_exponential",
    ascii "integrate_1d_double_exponential_tol", ascii "integrate_1d_gauss_kronrod",
    ascii "integrate_1d_gauss_kronrod_tol"]

def odeCalls : List Bytes :=
  [ascii "integrate_ode", ascii "integrate_ode_rk45", ascii "integrate_ode_bdf",
    ascii "integrate_ode_adams", ascii "ode_rk45", ascii "ode_bdf", ascii "ode_adams", ascii "ode_ckrk",
    ascii "ode_rk45_tol", ascii "ode_bdf_tol", ascii "ode_adams_tol", ascii "ode_ckrk_tol",
    ascii "ode_adjoint_tol_ctl"]

def daeCalls : List Bytes := [ascii "dae", ascii "dae_tol"]

/-- `higher_order_call`, for a function of the library. -/
def higherOrderCall (name : Bytes) : Bool :=
  name == ascii "reduce_sum" || name == ascii "reduce_sum_static" || name == ascii "map_rect" ||
    algebraCalls.contains name || quadratureCalls.contains name || odeCalls.contains name ||
    daeCalls.contains name

/-- `stateful_intrinsic_kind`, for a function of the library: `target()`. -/
def statefulIntrinsic (name : Bytes) (args : List Expr) : Bool :=
  name == ascii "target" && args.isEmpty

mutual

/-- `repeatable_target_expr`, apart from the iterator. -/
def repeatableCalls : Expr → Bool
  | ⟨kind, name, fnLib, _, _, _, _, args, _, _, _, _, _⟩ =>
    kind != .unsupported &&
      (kind != .funApp || (fnLib == .stanLib && !(ascii "_rng").isSuffixOf name &&
        !higherOrderCall name && !statefulIntrinsic name args)) &&
      allRepeatableCalls args

def allRepeatableCalls : List Expr → Bool
  | [] => true
  | e :: es => repeatableCalls e && allRepeatableCalls es

end

/-- The check that no node mentions the iterator comes first at every node, so it is made at the root
for all of them. -/
def repeatableTargetExpr (loopvar : Bytes) (e : Expr) : Bool :=
  !references loopvar e && repeatableCalls e

/-! ## The whitelist of statements -/

mutual

def collectLoopLocals : Stmt → List Bytes
  | ⟨kind, declId, _, _, _, _, _, _, _, _, _, _, _, _, _, _, _, _, _, _, _, body, _⟩ =>
    (if kind = .decl then [declId] else []) ++ collectAllLocals body

def collectAllLocals : List Stmt → List Bytes
  | [] => []
  | s :: ss => collectLoopLocals s ++ collectAllLocals ss

end

mutual

/-- `repeatable_target_stmt`, without the flag that a target increment was seen. -/
def repeatableTargetStmt (loopvar : Bytes) (locals : List Bytes) : Stmt → Bool
  | ⟨kind, _, declType, _, hasInit, init, readTransform, _, lhs, lhsIdx, rhs, target, _, _, _, _, _, _,
      lower, upper, cond, body, _⟩ =>
    match kind with
    | .block => allRepeatable loopvar locals body
    | .sList => allRepeatable loopvar locals body
    | .targetPE => repeatableTargetExpr loopvar target
    | .decl =>
      readTransform.isNone && declType.dims.all (repeatableTargetExpr loopvar) &&
        (!hasInit || repeatableTargetExpr loopvar init)
    | .assignment =>
      locals.contains lhs && repeatableTargetExpr loopvar rhs &&
        lhsIdx.all (repeatableTargetExpr loopvar)
    | .for =>
      repeatableTargetExpr loopvar lower && repeatableTargetExpr loopvar upper &&
        allRepeatable loopvar locals body
    | .ifElse => repeatableTargetExpr loopvar cond && allRepeatable loopvar locals body
    | .skip => true
    | _ => false

def allRepeatable (loopvar : Bytes) (locals : List Bytes) : List Stmt → Bool
  | [] => true
  | s :: ss => repeatableTargetStmt loopvar locals s && allRepeatable loopvar locals ss

end

mutual

/-- The flag of `repeatable_target_stmt`: a target increment is reached on the walk. -/
def incrementsTarget : Stmt → Bool
  | ⟨kind, _, _, _, _, _, _, _, _, _, _, _, _, _, _, _, _, _, _, _, _, body, _⟩ =>
    kind == .targetPE || anyIncrementsTarget body

def anyIncrementsTarget : List Stmt → Bool
  | [] => false
  | s :: ss => incrementsTarget s || anyIncrementsTarget ss

end

def repeatableTargetBody (loopvar : Bytes) (body : List Stmt) : Bool :=
  allRepeatable loopvar (collectAllLocals body) body && anyIncrementsTarget body

end TargetLoop

end Stanli
