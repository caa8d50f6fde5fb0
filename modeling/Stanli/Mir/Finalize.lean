import Mathlib.Data.List.Sort
import Stanli.Mir.ReadSexp
import Stanli.Mir.Shape

namespace Stanli.Mir

open Sexp

/-! ### Finalization

`finalize_program` of `mir_reader.cpp`: the passes that rewrite a decoded program after its shape has
been validated, and the checks of its bindings. -/

/-! ### Jacobian statements -/

/-- The target a statement carries as an s-expression: the portable format has no JacobianPE. -/
def opaqueTarget (H : Host) (s : Stmt) : Checked (Option Expr) :=
  if s.kind = .unsupported ∧ (ascii "(JacobianPE ").isPrefixOf s.raw = true then do
    let pattern ← parse s.raw
    if pattern.size ≠ 2 then malformed (ascii "JacobianPE statement")
    else
      let operand ← pattern.get 1
      let target ← readExpr H operand
      pure (some target)
  else .ok none

/-- `read_jacobian_statements` at one statement. -/
def readJacobianNode (H : Host) (s : Stmt) : Checked Stmt := do
  let target ← opaqueTarget H s
  match target with
  | none => pure s
  | some target => pure { s with kind := .targetPE, target }

/-! ### Wrapped arguments -/

def isEval (e : Expr) : Bool :=
  e.kind == .funApp && e.fnLib == .stanLib && e.name == ascii "eval" && e.args.length == 1

/-- `strip_eval` at one expression: the value of `eval(x)` is the value of `x`. -/
def stripEvalNode (e : Expr) : Expr :=
  if isEval e = true then e.args.headD e else e

def stripEval (e : Expr) : Expr :=
  e.mapNodes stripEvalNode

/-- `strip_eval` at one statement; transforms keep their wrappers. -/
def stripEvalStmt (s : Stmt) : Stmt :=
  { s with
    init := stripEval s.init, rhs := stripEval s.rhs, target := stripEval s.target
    lower := stripEval s.lower, upper := stripEval s.upper, cond := stripEval s.cond
    readDims := s.readDims.map stripEval, lhsIdx := s.lhsIdx.map stripEval
    fnArgs := s.fnArgs.map stripEval
    declType := { s.declType with dims := s.declType.dims.map stripEval } }

/-! ### Mangled names -/

def kMangle : Bytes := ascii "_stan_"

/-- `unmangle` on a name. -/
def unmangleName (name : Bytes) : Bytes :=
  if kMangle.isPrefixOf name = true then name.drop kMangle.length else name

def unmangleNode (e : Expr) : Expr :=
  { e with name := unmangleName e.name }

def unmangle (e : Expr) : Expr :=
  e.mapNodes unmangleNode

def unmangleSized (type : SizedType) : SizedType :=
  { type with dims := type.dims.map unmangle }

def unmangleTransform (t : Transform) : Transform :=
  { t with args := t.args.map unmangle }

/-- `unmangle` at one statement. -/
def unmangleStmt (s : Stmt) : Stmt :=
  { s with
    declId := unmangleName s.declId, lhs := unmangleName s.lhs, loopvar := unmangleName s.loopvar
    fnName := unmangleName s.fnName, checkVarName := unmangleName s.checkVarName
    init := unmangle s.init, rhs := unmangle s.rhs, target := unmangle s.target
    lower := unmangle s.lower, upper := unmangle s.upper, cond := unmangle s.cond
    readDims := s.readDims.map unmangle, lhsIdx := s.lhsIdx.map unmangle
    fnArgs := s.fnArgs.map unmangle, declType := unmangleSized s.declType
    readTransform := s.readTransform.map unmangleTransform
    checkTransform := s.checkTransform.map unmangleTransform
    writeTransform := s.writeTransform.map unmangleTransform }

/-! ### Unsized declarations -/

/-- `restore_unsized_decls` at one statement, with the strict metadata of the portable reader. -/
def restoreUnsizedNode (s : Stmt) : Checked Stmt :=
  if s.kind = .decl ∧ s.declType.base = [] then
    let raw := s.declType.raw
    let looksUnsized := (ascii "(Unsized").isPrefixOf raw
    let wrapped := decide (raw.length > 10) && (ascii "(Unsized ").isPrefixOf raw &&
      raw.getLast? == some 41
    let spelling := (raw.drop 9).dropLast
    match if wrapped then parseUnsizedSpelling spelling else none with
    | some unsized => .ok { s with declType := { s.declType with unsized } }
    | none => if looksUnsized then malformed (ascii "unsized declaration type") else .ok s
  else .ok s

/-! ### Overloads -/

/-- The suffix that tells one overload of a name from another. -/
def viewSuffix (view : UnsizedView) : Bytes :=
  let leaf := match view.leaf with
    | .int => "int"
    | .real => "real"
    | .complex => "complex"
    | .vector => "vector"
    | .rowVector => "row_vector"
    | .matrix => "matrix"
    | .unknown => "?"
  ascii leaf ++ (List.replicate view.depth.toNat (ascii "[]")).flatten

/-- `signature`. -/
def signature (views : List UnsizedView) : Bytes :=
  ascii "(" ++ (List.intersperse (ascii ",") (views.map viewSuffix)).flatten ++ ascii ")"

/-- The functions that share a name, under their internal names, for each shared name. -/
abbrev Overloads := List (Bytes × List FunDef)

def findOverloads (overloads : Overloads) (name : Bytes) : Option (List FunDef) :=
  (overloads.find? fun entry => entry.1 == name).map Prod.snd

/-- `resolve_overload` among the candidates of a name. -/
def resolveOverload (name : Bytes) (candidates : List FunDef) (views : List UnsizedView) :
    Checked Bytes :=
  match candidates.filter fun f => decide (f.argViews = views) with
  | [] => .error (.runtime (ascii "mir: no overload of " ++ name ++ ascii " matches its call"))
  | [f] => .ok f.name
  | _ => .error (.runtime (ascii "mir: ambiguous overload for " ++ name))

/-- `function_argument_views`: the argument types of a function passed by name. -/
def functionArgumentViews (raw : Bytes) : Checked (List UnsizedView) := do
  let type ← parse raw
  let bad : Checked (List UnsizedView) :=
    .error (.runtime (ascii "mir: malformed function type " ++ raw))
  if !type.headIs (ascii "UFun") || type.size != 2 then bad
  else
    let parts ← type.get 1
    if parts.isAtom || parts.size == 0 then bad
    else
      let args ← parts.get 0
      if args.isAtom then bad
      else args.kids.mapM fun arg =>
        if arg.isAtom || arg.size != 2 then
          .error (.runtime (ascii "mir: malformed function type " ++ raw))
        else do
          let view ← arg.get 1
          readUnsized view

/-- The argument types an expression selects its overload by. -/
def siteViews (call : Bool) (e : Expr) : Checked (List UnsizedView) :=
  if call then .ok (e.args.map Expr.unsized) else functionArgumentViews e.raw

/-- `resolve_calls` at one expression: a call of a user function, or one passed by name. -/
def resolveNode (overloads : Overloads) (e : Expr) : Checked Expr :=
  let call := decide (e.kind = .funApp) && decide (e.fnLib = .userDefined)
  let callback := decide (e.kind = .var) && (ascii "(UFun ").isPrefixOf e.raw
  if !call && !callback then .ok e
  else
    match findOverloads overloads e.name with
    | none => .ok e
    | some candidates => do
      let views ← siteViews call e
      let name ← resolveOverload e.name candidates views
      pure { e with name }

def resolveCalls (overloads : Overloads) (e : Expr) : Checked Expr :=
  e.rewrite (resolveNode overloads)

/-- The name in `(UserDefined name FnPlain)`, with what surrounds it. -/
def userDefinedStatementName (fnName : Bytes) : Option (Bytes × Bytes × Bytes) :=
  let opened := ascii "(UserDefined "
  if opened.isPrefixOf fnName = true then
    let rest := fnName.drop opened.length
    let name := rest.takeWhile fun c => c != 32
    if name.length = rest.length ∨ name = [] then none
    else some (opened, name, rest.drop name.length)
  else none

/-- The statement's own call. -/
def resolveStatementName (overloads : Overloads) (s : Stmt) : Checked Bytes :=
  match userDefinedStatementName s.fnName with
  | none => .ok s.fnName
  | some (opened, name, rest) =>
    match findOverloads overloads name with
    | none => .ok s.fnName
    | some candidates => do
      let resolved ← resolveOverload name candidates (s.fnArgs.map Expr.unsized)
      pure (opened ++ resolved ++ rest)

def resolveExprs (overloads : Overloads) (es : List Expr) : Checked (List Expr) :=
  Expr.rewrites (resolveNode overloads) es

def resolveTransform (overloads : Overloads) : Option Transform → Checked (Option Transform)
  | none => .ok none
  | some t => do
    let args ← resolveExprs overloads t.args
    pure (some { t with args })

/-- `resolve_calls` at one statement; the transform of a write is left alone. -/
def resolveStmt (overloads : Overloads) (s : Stmt) : Checked Stmt := do
  let fnName ← resolveStatementName overloads s
  let init ← resolveCalls overloads s.init
  let rhs ← resolveCalls overloads s.rhs
  let target ← resolveCalls overloads s.target
  let lower ← resolveCalls overloads s.lower
  let upper ← resolveCalls overloads s.upper
  let cond ← resolveCalls overloads s.cond
  let readDims ← resolveExprs overloads s.readDims
  let lhsIdx ← resolveExprs overloads s.lhsIdx
  let fnArgs ← resolveExprs overloads s.fnArgs
  let dims ← resolveExprs overloads s.declType.dims
  let readTransform ← resolveTransform overloads s.readTransform
  let checkTransform ← resolveTransform overloads s.checkTransform
  pure { s with fnName, init, rhs, target, lower, upper, cond, readDims, lhsIdx, fnArgs,
                declType := { s.declType with dims }, readTransform, checkTransform }

/-! ### Rewriting a program -/

def FunDef.rewrite (f : Stmt → Checked Stmt) (fn : FunDef) : Checked FunDef := do
  let body ← Stmt.rewrites f fn.body
  pure { fn with body }

/-- A pass over the statements of every section and every function. -/
def Program.rewrite (f : Stmt → Checked Stmt) (p : Program) : Checked Program := do
  let prepareData ← Stmt.rewrites f p.prepareData
  let logProb ← Stmt.rewrites f p.logProb
  let generateQuantities ← Stmt.rewrites f p.generateQuantities
  let transformInits ← Stmt.rewrites f p.transformInits
  let funDefs ← p.funDefs.mapM (FunDef.rewrite f)
  pure { p with prepareData, logProb, generateQuantities, transformInits, funDefs }

/-- `read_jacobian_statements` and the `strip_eval` after it, at one statement. -/
def readOpaqueNode (H : Host) (s : Stmt) : Checked Stmt := do
  let s ← readJacobianNode H s
  pure (stripEvalStmt s)

/-- The names a program holds outside its statements. -/
def unmangleDecls (p : Program) : Program :=
  { p with
    inputVars := p.inputVars.map fun input => (unmangleName input.1, unmangleSized input.2)
    funDefs := p.funDefs.map fun f =>
      { f with name := unmangleName f.name, argNames := f.argNames.map unmangleName }
    outputVars := p.outputVars.map unmangleName }

/-- `unmangle` on a program. -/
def unmangleProgram (p : Program) : Checked Program :=
  (unmangleDecls p).rewrite fun s => .ok (unmangleStmt s)

/-- Whether two functions of a list have the same argument views. -/
def indistinguishable : List FunDef → Bool
  | [] => false
  | f :: fs => fs.any (fun f' => decide (f.argViews = f'.argViews)) || indistinguishable fs

/-- The names that several functions share, in key order. -/
def sharedNames (fns : List FunDef) : List Bytes :=
  ((fns.map FunDef.name).dedup.filter fun name =>
    decide (2 ≤ (fns.filter fun f => f.name == name).length)).insertionSort fun a b => ¬ b < a

/-- A function under its internal name. -/
def FunDef.renamed (shared : List Bytes) (f : FunDef) : FunDef :=
  if shared.contains f.name = true then { f with name := f.name ++ signature f.argViews } else f

/-- The overload table of a program's functions. -/
def overloadTable (fns : List FunDef) : Checked Overloads :=
  (sharedNames fns).mapM fun name =>
    let defs := fns.filter fun f => f.name == name
    if indistinguishable defs then
      .error (.runtime (ascii "mir: indistinguishable overloads of " ++ name))
    else .ok (name, defs.map fun f => f.renamed [name])

def resolveInput (overloads : Overloads) (input : Bytes × SizedType) :
    Checked (Bytes × SizedType) := do
  let dims ← resolveExprs overloads input.2.dims
  pure (input.1, { input.2 with dims })

/-- `resolve_overloads`. -/
def resolveOverloads (p : Program) : Checked Program := do
  let overloads ← overloadTable p.funDefs
  if overloads.isEmpty then pure p
  else
    let p := { p with funDefs := p.funDefs.map (FunDef.renamed (sharedNames p.funDefs)) }
    let inputVars ← p.inputVars.mapM (resolveInput overloads)
    Program.rewrite (resolveStmt overloads) { p with inputVars }

/-- The rewriting passes of `finalize_program`, in order. -/
def rewriteProgram (H : Host) (p : Program) : Checked Program := do
  let p ← p.rewrite (readOpaqueNode H)
  let p ← unmangleProgram p
  let p ← p.rewrite restoreUnsizedNode
  resolveOverloads p

end Stanli.Mir
