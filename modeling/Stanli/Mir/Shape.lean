import Stanli.Mir.Sexp
import Stanli.Mir.Tree

namespace Stanli.Mir

/-! ### Shape validation

The shape pass of `mir_reader.cpp`: every kind of node has the number of arguments, dimensions or
bodies that the later stages address by position. -/

/-- The arities of the registered overloads of a function (`function_registry.cpp`). -/
abbrev Registry := Bytes → List ℕ

def Registry.functionRegistered (R : Registry) (name : Bytes) : Bool :=
  !(R name).isEmpty

def Registry.functionArityRegistered (R : Registry) (name : Bytes) (arity : ℕ) : Bool :=
  (R name).contains arity

/-- `named`. -/
def named (e : Expr) (names : List String) : Bool :=
  names.any fun name => e.name == ascii name

def count (n : ℕ) : Bytes := decimalNat n

/-! ### Function calls -/

/-- Whether `nullary_constant_kind` knows the call. -/
def isNullaryConstant (e : Expr) : Bool :=
  if e.kind ≠ .funApp ∨ e.args.length ≠ 0 then false
  else if e.fnLib = .internal then e.name == ascii "FnNegInf"
  else if e.fnLib ≠ .stanLib then false
  else named e ["e", "pi", "log2", "log10", "sqrt2", "machine_precision", "negative_infinity",
    "positive_infinity", "not_a_number"]

/-- The stems of `callable_transform`, with their arity and whether they are structured. -/
def callableStems : List (String × ℕ × Bool) :=
  [("lower_bound", 2, false), ("upper_bound", 2, false), ("lower_upper_bound", 3, false),
    ("offset_multiplier", 3, false), ("ordered", 1, true), ("positive_ordered", 1, true),
    ("simplex", 1, true), ("stochastic_column", 1, true), ("stochastic_row", 1, true),
    ("sum_to_zero", 1, true), ("unit_vector", 1, true), ("cholesky_factor_corr", 2, true),
    ("corr_matrix", 2, true), ("cov_matrix", 2, true), ("cholesky_factor_cov", 3, true)]

/-- `transform_suffix`, with what is left of the name. -/
def stemOf (name : Bytes) (ending : String) : Option Bytes :=
  if (ascii ending).isSuffixOf name then some (name.take (name.length - (ascii ending).length))
  else none

/-- The arity of a callable transform's stem; a structured inverse takes its value alone. -/
def callableArity (stem : Bytes) (unconstrain : Bool) : Option ℕ :=
  (callableStems.find? fun entry => ascii entry.1 == stem).map fun entry =>
    if entry.2.2 = true ∧ unconstrain = true then 1 else entry.2.1

/-- The arity `callable_transform` gives a name. -/
def callableTransform (name : Bytes) : Option ℕ :=
  match stemOf name "_jacobian" with
  | some stem => callableArity stem false
  | none =>
    match stemOf name "_constrain" with
    | some stem => callableArity stem false
    | none =>
      match stemOf name "_unconstrain" with
      | some stem => callableArity stem true
      | none => none

/-- Whether the name, without the ending of an ODE solver with tolerances, is a modern solver, and
the fewest arguments it takes. -/
def modernOde (name : Bytes) : Option ℕ :=
  let tolerance := decide (name.length > 4) && (ascii "_tol").isSuffixOf name
  let base := if tolerance = true then name.take (name.length - 4) else name
  if base = ascii "ode_bdf" ∨ base = ascii "ode_adams" ∨ base = ascii "ode_rk45" ∨
      base = ascii "ode_ckrk" then
    some (if tolerance = true then 7 else 4)
  else none

def wrongArity {α : Type} (e : Expr) (expected : Bytes) : Checked α :=
  malformed (e.name ++ ascii " call: expected " ++ expected ++ ascii ", got " ++
    count e.args.length)

def requireArity (e : Expr) (expected : ℕ) : Checked Unit :=
  if e.args.length ≠ expected then wrongArity e (count expected ++ ascii " argument(s)") else .ok ()

def requireEither (e : Expr) (first second : ℕ) : Checked Unit :=
  if e.args.length ≠ first ∧ e.args.length ≠ second then
    wrongArity e (count first ++ ascii " or " ++ count second ++ ascii " argument(s)")
  else .ok ()

/-- The rules for calls whose name no rule before them covers. -/
def validateRegistered (R : Registry) (e : Expr) : Checked Unit :=
  if (ascii "integrate_ode_").isPrefixOf e.name && e.args.length != 7 && e.args.length != 10 then
    wrongArity e (ascii "7 or 10 argument(s)")
  else if R.functionRegistered e.name then
    malformed (e.name ++ ascii " call: no registered overload takes " ++ count e.args.length ++
      ascii " argument(s)")
  else .ok ()

/-- The rules that start at the densities outside the registry. -/
def validateLongCalls (R : Registry) (e : Expr) : Checked Unit :=
  if named e ["gaussian_dlm_obs_lpdf"] then requireArity e 7
  else if named e ["wiener_lpdf"] then
    if e.args.length < 5 ∨ e.args.length > 9 then wrongArity e (ascii "5 to 9 argument(s)")
    else .ok ()
  else if named e ["wiener_lcdf_unnorm", "wiener_lccdf_unnorm"] then
    -- `wiener_form` has no form of these names with seven arguments
    if e.args.length < 5 ∨ e.args.length > 9 ∨ e.args.length = 7 then
      wrongArity e (ascii "5, 6, 8 or 9 argument(s)")
    else .ok ()
  else
    match callableTransform e.name with
    | some arity => requireArity e arity
    | none =>
      match modernOde e.name with
      | some minimum =>
        if e.args.length < minimum then
          wrongArity e (ascii "at least " ++ count minimum ++ ascii " argument(s)")
        else .ok ()
      | none => validateRegistered R e

/-- `validate_funapp_arity`. -/
def validateFunappArity (R : Registry) (e : Expr) : Checked Unit :=
  if e.fnLib = .userDefined then .ok ()
  -- the nullary forms of `log2` and `log10` are language constants
  else if isNullaryConstant e then .ok ()
  else if R.functionArityRegistered e.name e.args.length then .ok ()
  else if named e ["IndexAll"] then requireArity e 0
  else if named e ["IndexSingle", "IndexMulti", "IndexUpfrom"] then requireArity e 1
  else if named e ["IndexBetween"] then requireArity e 2
  else if e.fnLib = .internal ∧ named e ["FnReadData", "FnLength"] then requireArity e 1
  else if named e ["pi", "e", "sqrt2", "machine_precision", "negative_infinity",
      "positive_infinity", "not_a_number"] then requireArity e 0
  else if named e ["Modulo__", "diag_pre_multiply", "diag_post_multiply", "quad_form_diag"] then
    requireArity e 2
  else if named e ["PPlus__", "plus", "prod", "categorical_rng", "tcrossprod"] then
    requireArity e 1
  else if named e ["min", "max"] then requireEither e 1 2
  else if named e ["fma"] then requireArity e 3
  else if named e ["log_mix"] then requireEither e 2 3
  else if named e ["gp_exp_quad_cov", "gp_matern32_cov", "gp_matern52_cov",
      "gp_exponential_cov"] then requireEither e 3 4
  else if named e ["map_rect"] then requireArity e 5
  else if named e ["reduce_sum", "reduce_sum_static"] then
    if e.args.length < 3 then
      malformed (ascii "reduce_sum call: expected at least 3 arguments, got " ++
        count e.args.length)
    else .ok ()
  else if named e ["algebra_solver"] then requireEither e 5 8
  else if named e ["multi_normal_rng"] then requireArity e 2
  else validateLongCalls R e

/-! ### Expressions -/

/-- The spelling of a leaf type; a view of an unknown leaf has none. -/
def leafSpelling : UnsizedLeaf → Bytes
  | .int => ascii "UInt"
  | .real => ascii "UReal"
  | .complex => ascii "UComplex"
  | .vector => ascii "UVector"
  | .rowVector => ascii "URowVector"
  | .matrix => ascii "UMatrix"
  | .unknown => []

def validateExpressionMetadata (e : Expr) : Checked Unit :=
  if e.unsized.leaf = .unknown then
    if e.type = ascii "UInt" ∨ e.type = ascii "UReal" ∨ e.type = ascii "UComplex" ∨
        e.type = ascii "UVector" ∨ e.type = ascii "URowVector" ∨ e.type = ascii "UMatrix" ∨
        e.type = ascii "UArray" then
      malformed (ascii "expression type metadata")
    else .ok ()
  else if e.type ≠ (if e.unsized.depth = 0 then leafSpelling e.unsized.leaf else ascii "UArray") then
    malformed (ascii "expression type metadata")
  else .ok ()

/-- What the kind of an expression asks of its argument count: the switch of
`validate_expression_shape`. -/
def validateArity (R : Registry) (e : Expr) : Checked Unit :=
  match e.kind with
  | .var | .litInt | .litReal | .litStr | .unsupported =>
    if e.args.length ≠ 0 then malformed (ascii "leaf expression argument list") else .ok ()
  | .promotion =>
    if e.args.length ≠ 1 then malformed (ascii "Promotion expression arity") else .ok ()
  | .indexed =>
    if e.args.length = 0 then malformed (ascii "Indexed expression arity") else .ok ()
  | .ternaryIf =>
    if e.args.length ≠ 3 then malformed (ascii "TernaryIf expression arity") else .ok ()
  | .eOr => if e.args.length ≠ 2 then malformed (ascii "EOr expression arity") else .ok ()
  | .eAnd => if e.args.length ≠ 2 then malformed (ascii "EAnd expression arity") else .ok ()
  | .funApp => validateFunappArity R e

/-- The expression is the descriptor of an index. -/
def isIndex (e : Expr) : Bool :=
  e.kind == .funApp && e.fnLib == .stanLib &&
    named e ["IndexAll", "IndexSingle", "IndexBetween", "IndexMulti", "IndexUpfrom"]

def requireIndex (index : Expr) : Checked Unit :=
  if isIndex index = true then .ok () else malformed (ascii "index descriptor")

mutual

def validateExpressionShape (R : Registry) : Expr → Checked Unit
  | ⟨kind, name, fnLib, fnPropto, litI, lit, litS, args, type, unsized, dataOnly, promoted, raw⟩ =>
    do
      let e : Expr :=
        ⟨kind, name, fnLib, fnPropto, litI, lit, litS, args, type, unsized, dataOnly, promoted, raw⟩
      validateExpressionMetadata e
      validateArity R e
      -- the arguments of `Indexed` after its base are descriptors
      validateArguments R (decide (kind = .indexed)) args

/-- The arguments of a node, the first of them an expression and the others descriptors where
`base` says so. -/
def validateArguments (R : Registry) (base : Bool) : List Expr → Checked Unit
  | [] => .ok ()
  | arg :: args => do
    validateExpressionShape R arg
    if base then validateIndices R args else validateArguments R false args

/-- `validate_index_shape` over a list. -/
def validateIndices (R : Registry) : List Expr → Checked Unit
  | [] => .ok ()
  | index :: indices => do
    requireIndex index
    validateExpressionShape R index
    validateIndices R indices

end

/-- The loop over a list of expressions. -/
def validateExpressions (R : Registry) (es : List Expr) : Checked Unit :=
  validateArguments R false es

/-! ### Transforms, types and statements -/

/-- The argument count of a transform; the unsupported ones have none of their own. -/
def transformArity : TransformKind → Option ℕ
  | .lower | .upper | .offset | .multiplier => some 1
  | .lowerUpper | .offsetMultiplier => some 2
  | .unsupported => none
  | _ => some 0

def validateTransformArity (t : Transform) : Checked Unit :=
  match transformArity t.kind with
  | none => .ok ()
  | some arity =>
    if t.args.length ≠ arity then
      malformed (ascii "transform arity: expected " ++ count arity ++ ascii " argument(s), got " ++
        count t.args.length)
    else .ok ()

def validateTransformShape (R : Registry) (t : Transform) : Checked Unit := do
  validateTransformArity t
  validateExpressions R t.args

/-- The dimensions of the innermost element of an array. -/
def leafRank (elemBase : Bytes) : ℕ :=
  if elemBase = ascii "SVector" ∨ elemBase = ascii "SRowVector" then 1
  else if elemBase = ascii "SMatrix" then 2
  else 0

def requireDims (type : SizedType) (arity : ℕ) : Checked Unit :=
  if type.dims.length ≠ arity then
    malformed (type.base ++ ascii " sized type dimensions: expected " ++ count arity ++
      ascii ", got " ++ count type.dims.length)
  else .ok ()

def validateSizedArity (type : SizedType) : Checked Unit :=
  if type.base = ascii "SVector" ∨ type.base = ascii "SRowVector" then requireDims type 1
  else if type.base = ascii "SMatrix" then requireDims type 2
  else if type.base = ascii "SArray" then
    if type.dims.length ≤ leafRank type.elemBase then
      malformed (ascii "SArray sized type dimensions")
    else .ok ()
  else if type.base ≠ ascii "SInt" ∧ type.base ≠ ascii "SReal" ∧ type.base ≠ ascii "SComplex" ∧
      type.base ≠ [] then .ok ()
  else requireDims type 0

def validateSizedTypeShape (R : Registry) (type : SizedType) : Checked Unit := do
  validateSizedArity type
  validateExpressions R type.dims

/-- What the kind of a statement asks of its body. -/
def validateBody (s : Stmt) : Checked Unit :=
  match s.kind with
  | .for => if s.body.length ≠ 1 then malformed (ascii "For statement body arity") else .ok ()
  | .while => if s.body.length ≠ 1 then malformed (ascii "While statement body arity") else .ok ()
  | .ifElse =>
    if s.body.length = 0 ∨ s.body.length > 2 then malformed (ascii "IfElse statement body arity")
    else .ok ()
  | .block | .sList => .ok ()
  | _ => if s.body.length ≠ 0 then malformed (ascii "statement body") else .ok ()

/-- An optional part. -/
def validateOptional {α : Type} (validate : α → Checked Unit) : Option α → Checked Unit
  | none => .ok ()
  | some value => validate value

/-- `validate_statement_shape` up to the children. -/
def validateStatementNode (R : Registry) (s : Stmt) : Checked Unit := do
  validateSizedTypeShape R s.declType
  validateExpressions R [s.init, s.rhs, s.target, s.lower, s.upper, s.cond]
  validateExpressions R (s.readDims ++ s.lhsIdx ++ s.fnArgs)
  validateIndices R s.lhsIdx
  validateOptional (validateTransformShape R) s.readTransform
  validateOptional (validateTransformShape R) s.checkTransform
  validateBody s

mutual

def validateStatementShape (R : Registry) : Stmt → Checked Unit
  | ⟨kind, declId, declType, declDataOnly, hasInit, init, readTransform, readDims, lhs, lhsIdx, rhs,
      target, fnName, fnArgs, checkTransform, checkVarName, writeTransform, loopvar, lower, upper,
      cond, body, raw⟩ => do
    validateStatementNode R ⟨kind, declId, declType, declDataOnly, hasInit, init, readTransform,
      readDims, lhs, lhsIdx, rhs, target, fnName, fnArgs, checkTransform, checkVarName,
      writeTransform, loopvar, lower, upper, cond, body, raw⟩
    validateStatements R body

def validateStatements (R : Registry) : List Stmt → Checked Unit
  | [] => .ok ()
  | s :: ss => do
    validateStatementShape R s
    validateStatements R ss

end

/-! ### Programs -/

/-- `parse_unsized_spelling`, where at most `fuel` more array levels are let pass. -/
def parseUnsizedAt : ℕ → ℕ → Bytes → Option UnsizedView
  | fuel, depth, text =>
    if text.length > 8 ∧ text.take 8 = ascii "(UArray " ∧ text.getLast? = some 41 then
      match fuel with
      | 0 => none
      | fuel + 1 => parseUnsizedAt fuel (depth + 1) ((text.drop 8).dropLast)
    else
      [UnsizedLeaf.int, .real, .complex, .vector, .rowVector, .matrix].findSome? fun leaf =>
        if text = leafSpelling leaf then some { depth := UInt8.ofNat depth, leaf } else none

def parseUnsizedSpelling (text : Bytes) : Option UnsizedView :=
  parseUnsizedAt 255 0 text

/-- One argument of a function: a recognized type spelling agrees with the view. -/
def validateArgument (type : Bytes) (view : UnsizedView) : Checked Unit :=
  match parseUnsizedSpelling type with
  | some parsed =>
    if parsed ≠ view then malformed (ascii "function argument type disagrees with its view")
    else .ok ()
  | none =>
    if view.leaf ≠ .unknown then
      malformed (ascii "function argument type disagrees with its view")
    else .ok ()

def validateSignature (f : FunDef) : Checked Unit :=
  let arity := f.argNames.length
  if f.argTypes.length ≠ arity ∨ f.argViews.length ≠ arity ∨ f.argDataOnly.length ≠ arity then
    malformed (ascii "function argument field lengths disagree")
  else (f.argTypes.zip f.argViews).forM fun arg => validateArgument arg.1 arg.2

def validateFunction (R : Registry) (f : FunDef) : Checked Unit := do
  validateSignature f
  validateStatements R f.body

/-- `validate_program_shape`. -/
def validateProgramShape (R : Registry) (p : Program) : Checked Unit := do
  p.inputVars.forM fun input => validateSizedTypeShape R input.2
  validateStatements R p.prepareData
  validateStatements R p.logProb
  validateStatements R p.generateQuantities
  validateStatements R p.transformInits
  p.funDefs.forM (validateFunction R)

end Stanli.Mir
