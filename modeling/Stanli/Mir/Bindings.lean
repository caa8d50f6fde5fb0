import Stanli.Mir.Finalize

namespace Stanli.Mir

/-! ### Bindings

The last pass of `finalize_program`: the types that expressions carry agree with the declarations in
scope and with the signatures of user functions. It changes nothing. -/

structure Binding where
  view : UnsizedView
  declaredDataOnly : Bool := false

abbrev Bindings := Bytes → Option Binding

def Bindings.bind (b : Bindings) (name : Bytes) (binding : Binding) : Bindings :=
  fun x => if x = name then some binding else b x

abbrev Functions := Bytes → Option FunDef

def runtime {α : Type} (message : Bytes) : Checked α := .error (.runtime message)

/-- The leaf of a sized base. -/
def baseLeaf (base : Bytes) : UnsizedLeaf :=
  if base = ascii "SInt" then .int
  else if base = ascii "SReal" then .real
  else if base = ascii "SComplex" then .complex
  else if base = ascii "SVector" then .vector
  else if base = ascii "SRowVector" then .rowVector
  else if base = ascii "SMatrix" then .matrix
  else .unknown

def declaredView (type : SizedType) : Checked UnsizedView :=
  if type.unsized.leaf ≠ .unknown then .ok type.unsized
  else
    let leaf := baseLeaf (if type.base = ascii "SArray" then type.elemBase else type.base)
    if type.base ≠ ascii "SArray" then .ok { leaf }
    else
      let rank := if leaf = .matrix then 2 else if leaf = .vector ∨ leaf = .rowVector then 1 else 0
      if leaf = .unknown ∨ type.dims.length < rank ∨ type.dims.length - rank > 255 then
        runtime (ascii "mir: malformed sized declaration type")
      else .ok { depth := UInt8.ofNat (type.dims.length - rank), leaf }

/-- A variable's type against its binding. -/
def checkVariable (bindings : Bindings) (e : Expr) : Checked Unit :=
  if e.kind = .var ∧ e.promoted = false then
    match bindings e.name with
    | none => .ok ()
    | some binding =>
      if binding.view.leaf ≠ .unknown ∧ binding.view ≠ e.unsized then
        runtime (ascii "mir: variable type disagrees with its binding for " ++ e.name)
      else .ok ()
  else .ok ()

/-- An argument of a categorical density, when it is a variable. -/
def checkCategoricalArgument (bindings : Bindings) (arg : Expr) : Checked Unit :=
  if arg.kind ≠ .var then .ok ()
  else
    match bindings arg.name with
    | none => runtime (ascii "mir: categorical argument has no binding")
    | some binding =>
      if binding.view ≠ arg.unsized then
        runtime (ascii "mir: categorical argument type disagrees with its binding")
      else .ok ()

def checkCategorical (bindings : Bindings) (e : Expr) : Checked Unit :=
  if e.kind = .funApp ∧ e.fnLib = .stanLib ∧
      named e ["categorical_lpmf", "categorical_logit_lpmf"] = true then
    match e.args with
    | [outcome, weights] =>
      if outcome.unsized.leaf ≠ .int ∨ outcome.unsized.depth > 1 ∨
          weights.unsized ≠ { depth := 0, leaf := .vector } then
        runtime (ascii "mir: malformed categorical signature")
      else do
        checkCategoricalArgument bindings outcome
        checkCategoricalArgument bindings weights
    | _ => runtime (ascii "mir: malformed categorical signature")
  else .ok ()

/-- One argument of a user function's call. -/
def checkUserArgument (bindings : Bindings) (name : Bytes) (arg : Expr) (view : UnsizedView)
    (dataOnly : Bool) : Checked Unit := do
  if arg.unsized ≠ view then
    runtime (ascii "mir: user function argument type mismatch for " ++ name)
  else .ok ()
  if arg.kind = .var ∧ arg.promoted = false then
    match bindings arg.name with
    | some binding =>
      if binding.view ≠ arg.unsized then
        runtime (ascii "mir: user function argument type disagrees with its binding for " ++ name)
      else .ok ()
    | none =>
      runtime (ascii "mir: user function argument type disagrees with its binding for " ++ name)
  else .ok ()
  if dataOnly ∧ arg.dataOnly = false then
    runtime (ascii "mir: data-only function argument depends on a parameter")
  else .ok ()

def checkUserCall (bindings : Bindings) (functions : Functions) (e : Expr) : Checked Unit :=
  if e.kind = .funApp ∧ e.fnLib = .userDefined then
    match functions e.name with
    | none => runtime (ascii "mir: call to unknown user function " ++ e.name)
    | some f =>
      if e.args.length ≠ f.argNames.length then
        runtime (ascii "mir: user function arity mismatch for " ++ e.name)
      else (e.args.zip (f.argViews.zip f.argDataOnly)).forM fun arg =>
        checkUserArgument bindings e.name arg.1 arg.2.1 arg.2.2
  else .ok ()

mutual

/-- `validate_expression`, with the strict metadata of the portable reader. -/
def checkExpression (bindings : Bindings) (functions : Functions) : Expr → Checked Unit
  | ⟨kind, name, fnLib, fnPropto, litI, lit, litS, args, type, unsized, dataOnly, promoted, raw⟩ =>
    do
      let e : Expr :=
        ⟨kind, name, fnLib, fnPropto, litI, lit, litS, args, type, unsized, dataOnly, promoted, raw⟩
      checkVariable bindings e
      checkCategorical bindings e
      checkUserCall bindings functions e
      checkExpressions bindings functions args

def checkExpressions (bindings : Bindings) (functions : Functions) : List Expr → Checked Unit
  | [] => .ok ()
  | e :: es => do
    checkExpression bindings functions e
    checkExpressions bindings functions es

end

def isMatrixOnlyCheck : TransformKind → Bool
  | .choleskyCorr | .correlation | .covariance | .choleskyCov | .stochasticColumn
  | .stochasticRow => true
  | _ => false

def isStructuredCheck : TransformKind → Bool
  | .simplex | .ordered | .positiveOrdered | .choleskyCorr | .unitVector | .sumToZero
  | .correlation | .covariance | .choleskyCov | .stochasticColumn | .stochasticRow => true
  | _ => false

/-- The transform of an `FnCheck` against the value it checks. -/
def checkTransformValue (t : Transform) (args : List Expr) : Checked Unit :=
  if isStructuredCheck t.kind = true then
    match args with
    | [value] =>
      if t.args.length ≠ 0 then runtime (ascii "mir: malformed structured FnCheck")
      else
        let isMatrix := value.unsized.leaf = .matrix
        let isVector := value.unsized.leaf = .vector
        let matrixOnly := isMatrixOnlyCheck t.kind = true
        let vectorOnly := t.kind ≠ .sumToZero ∧ ¬ matrixOnly
        if (¬ isMatrix ∧ ¬ isVector) ∨ (matrixOnly ∧ ¬ isMatrix) ∨ (vectorOnly ∧ ¬ isVector) then
          runtime (ascii "mir: structured FnCheck transform and value type disagree")
        else .ok ()
    | _ => runtime (ascii "mir: malformed structured FnCheck")
  else if (t.kind = .lower ∨ t.kind = .upper) ∧ t.args.length = 1 ∧ args.length = 2 then .ok ()
  else runtime (ascii "mir: unsupported or malformed FnCheck")

/-- The checked value, when it is a variable. -/
def checkCheckedVariable (bindings : Bindings) (value : Expr) : Checked Unit :=
  if value.kind ≠ .var then .ok ()
  else
    match bindings value.name with
    | some binding =>
      if binding.view ≠ value.unsized then
        runtime (ascii "mir: FnCheck value type disagrees with its declaration")
      else .ok ()
    | none => runtime (ascii "mir: FnCheck value type disagrees with its declaration")

def checkFnCheck (bindings : Bindings) (s : Stmt) : Checked Unit :=
  if s.kind = .nrFunApp ∧ s.fnName = ascii "FnCheck" then
    match s.checkTransform with
    | none => runtime (ascii "mir: FnCheck has no transform")
    | some t => do
      checkTransformValue t s.fnArgs
      match s.fnArgs with
      | [] => .error .outOfRange
      | value :: _ => checkCheckedVariable bindings value
  else .ok ()

def checkAssignment (bindings : Bindings) (s : Stmt) : Checked Unit :=
  if s.kind = .assignment ∧ s.lhsIdx.length = 0 then
    match bindings s.lhs with
    | none => .ok ()
    | some binding =>
      if binding.view.leaf ≠ .unknown ∧ s.rhs.unsized.leaf ≠ .unknown ∧
          binding.view ≠ s.rhs.unsized then
        runtime (ascii "mir: assignment type disagrees with its binding for " ++ s.lhs)
      else .ok ()
  else .ok ()

/-- The bindings after a declaration. -/
def checkDeclaration (bindings : Bindings) (s : Stmt) : Checked Bindings :=
  if s.kind = .decl then do
    let view ← declaredView s.declType
    if s.declType.unsized.leaf ≠ .unknown ∧ s.hasInit = true ∧ s.init.unsized.leaf ≠ .unknown ∧
        view ≠ s.init.unsized then
      runtime (ascii "mir: declaration initializer type disagrees with its binding for " ++
        s.declId)
    else .ok (bindings.bind s.declId ⟨view, s.declDataOnly⟩)
  else .ok bindings

/-- `validate_bindings` at one statement, up to its body. -/
def checkStatementNode (functions : Functions) (bindings : Bindings) (s : Stmt) :
    Checked Bindings := do
  checkExpressions bindings functions [s.init, s.rhs, s.target, s.lower, s.upper, s.cond]
  checkExpressions bindings functions (s.readDims ++ s.lhsIdx ++ s.fnArgs)
  s.transforms.forM fun t => checkExpressions bindings functions t.args
  checkFnCheck bindings s
  checkAssignment bindings s
  checkDeclaration bindings s

mutual

/-- `validate_bindings` on a statement: the bindings it leaves in its scope. -/
def checkStatement (functions : Functions) (bindings : Bindings) : Stmt → Checked Bindings
  | ⟨kind, declId, declType, declDataOnly, hasInit, init, readTransform, readDims, lhs, lhsIdx, rhs,
      target, fnName, fnArgs, checkTransform, checkVarName, writeTransform, loopvar, lower, upper,
      cond, body, raw⟩ => do
    let bindings ← checkStatementNode functions bindings ⟨kind, declId, declType, declDataOnly,
      hasInit, init, readTransform, readDims, lhs, lhsIdx, rhs, target, fnName, fnArgs,
      checkTransform, checkVarName, writeTransform, loopvar, lower, upper, cond, body, raw⟩
    match kind with
    -- a statement list declares in the scope it stands in
    | .sList => checkStatements functions bindings body
    | .ifElse => do
      checkBranches functions bindings body
      pure bindings
    | .for => do
      let _ ← checkStatements functions
        (bindings.bind loopvar ⟨{ depth := 0, leaf := .int }, true⟩) body
      pure bindings
    | _ => do
      let _ ← checkStatements functions bindings body
      pure bindings

def checkStatements (functions : Functions) (bindings : Bindings) : List Stmt → Checked Bindings
  | [] => .ok bindings
  | s :: ss => do
    let bindings ← checkStatement functions bindings s
    checkStatements functions bindings ss

/-- Every branch in a scope of its own. -/
def checkBranches (functions : Functions) (bindings : Bindings) : List Stmt → Checked Unit
  | [] => .ok ()
  | s :: ss => do
    let _ ← checkStatement functions bindings s
    checkBranches functions bindings ss

end

/-- The functions of a program by name; a name that is defined twice is an error. -/
def functionTable : List FunDef → Functions → Checked Functions
  | [], functions => .ok functions
  | f :: fs, functions =>
    match functions f.name with
    | some _ =>
      runtime (ascii "mir: duplicate function name after overload resolution: " ++ f.name)
    | none => functionTable fs fun name => if name = f.name then some f else functions name

/-- The bindings of the data. -/
def inputBindings : List (Bytes × SizedType) → Checked Bindings
  | [] => .ok fun _ => none
  | (name, type) :: inputs => do
    let view ← declaredView type
    let bindings ← inputBindings inputs
    -- a later input of the same name replaces an earlier one
    pure fun x => if x = name then (bindings x).or (some ⟨view, true⟩) else bindings x

/-- The arguments of a function, bound in order. -/
def argumentBindings (f : FunDef) : Bindings :=
  (f.argNames.zip (f.argViews.zip f.argDataOnly)).foldl
    (fun bindings arg => bindings.bind arg.1 ⟨arg.2.1, arg.2.2⟩) fun _ => none

/-- The checks of `finalize_program`. -/
def checkProgram (p : Program) : Checked Unit := do
  let functions ← functionTable p.funDefs fun _ => none
  let inputs ← inputBindings p.inputVars
  let prepared ← checkStatements functions inputs p.prepareData
  let _ ← checkStatements functions prepared p.logProb
  let _ ← checkStatements functions prepared p.generateQuantities
  let _ ← checkStatements functions prepared p.transformInits
  p.funDefs.forM fun f => do
    let _ ← checkStatements functions (argumentBindings f) f.body
    pure ()

/-- `finalize_program` with strict variable metadata. -/
def finalizeProgram (H : Host) (p : Program) : Checked Program := do
  let p ← rewriteProgram H p
  checkProgram p
  pure p

end Stanli.Mir
