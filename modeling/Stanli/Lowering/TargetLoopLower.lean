import Stanli.Lowering.TargetLoop

/-!
# Lowering a loop body

`lowerStmt` is the lowering of the statements a target loop may hold, with the terms it pushes onto the
target.  A term of a `target +=` goes through `push_target_term` and carries the scale; the log Jacobian
of a callable transform is pushed as it is.  What is not known while the graph is built becomes a
run-time region (`runStmt`), which adds both into a register of its own that is pushed as one term.
-/

namespace Stanli

namespace TargetLoop

open Mir

inductive LowerError
  | unknownVariable (name : Bytes)
  | unsupported (raw : Bytes)
  | math (message : Bytes)
  | diverges
  deriving DecidableEq

/-- What the kernels compute on values of type `V`, the target being summed in `R`. -/
structure Ops (V R : Type) where
  litInt : ℤ → V
  litReal : Binary64 → V
  call : Bytes → List V → Except LowerError V
  /-- The value and the log Jacobian of a callable transform. -/
  transform : CallableTransformSpec → List V → Except LowerError (V × R)
  index : List V → Except LowerError V
  /-- The variable with the selected cells replaced. -/
  assign : V → List V → V → Except LowerError V
  /-- A declared variable before its first assignment. -/
  fresh : Bytes → List V → Except LowerError V
  truth : V → Except LowerError Bool
  toInt : V → Except LowerError ℤ
  /-- A target increment: a container adds the sum of its elements. -/
  sum : V → R

/-- What a name stands for, and whether the lowering knows the value. -/
structure Binding (V : Type) where
  value : V
  known : Bool
  deriving DecidableEq

/-- `scope`, `int_env` and the data environment together. -/
abbrev Env (V : Type) := Bytes → Option (Binding V)

variable {V R : Type}

def Env.set (env : Env V) (name : Bytes) (b : Option (Binding V)) : Env V :=
  fun n => if n = name then b else env n

/-- The environments agree on every name outside the list. -/
def AgreeOff (hidden : List Bytes) (env env' : Env V) : Prop := ∀ n, n ∉ hidden → env n = env' n

/-- None of the names occurs. -/
def inScope (hidden : List Bytes) (e : Expr) : Bool := hidden.all fun n => !references n e

mutual

/-- `assigned_names`. -/
def assignedNames : Stmt → List Bytes
  | ⟨kind, _, _, _, _, _, _, _, lhs, _, _, _, _, _, _, _, _, _, _, _, _, body, _⟩ =>
    (if kind = .assignment then [lhs] else []) ++ allAssignedNames body

def allAssignedNames : List Stmt → List Bytes
  | [] => []
  | s :: ss => assignedNames s ++ allAssignedNames ss

end

mutual

/-- `has_target_pe`. -/
def hasTargetPE : Stmt → Bool
  | ⟨kind, _, _, _, hasInit, init, _, _, _, lhsIdx, rhs, target, _, fnArgs, _, _, _, _, lower, upper,
      cond, body, _⟩ =>
    kind == .targetPE || (hasInit && exprHasJacobian init) || exprHasJacobian rhs ||
      exprHasJacobian target || exprHasJacobian lower || exprHasJacobian upper ||
      exprHasJacobian cond || anyHasJacobian fnArgs || anyHasJacobian lhsIdx || anyHasTargetPE body

def anyHasTargetPE : List Stmt → Bool
  | [] => false
  | s :: ss => hasTargetPE s || anyHasTargetPE ss

end

/-! ## Scopes

The lexical discipline of the source: a name bound in a loop body is mentioned only after its declaration,
within the block of it.  Only the compound statements hold others. -/

mutual

/-- The names still hidden after a statement: a declaration reveals its own, and those of a statement
list stay visible behind it. -/
def hiddenAfter (hidden : List Bytes) : Stmt → List Bytes
  | ⟨kind, declId, _, _, _, _, _, _, _, _, _, _, _, _, _, _, _, _, _, _, _, body, _⟩ =>
    if kind = .decl then hidden.filter (· ≠ declId)
    else if kind = .sList then hiddenAfterAll hidden body else hidden

def hiddenAfterAll (hidden : List Bytes) : List Stmt → List Bytes
  | [] => hidden
  | s :: ss => hiddenAfterAll (hiddenAfter hidden s) ss

end

mutual

def wellScoped (hidden : List Bytes) : Stmt → Bool
  | ⟨kind, _, declType, _, hasInit, init, _, _, lhs, lhsIdx, rhs, target, _, _, _, _, _, loopvar, lower,
      upper, cond, body, _⟩ =>
    match kind with
    | .block => allWellScoped hidden body
    | .sList => allWellScoped hidden body
    | .targetPE => body.isEmpty && inScope hidden target
    | .decl =>
      body.isEmpty && declType.dims.all (inScope hidden) && (!hasInit || inScope hidden init)
    | .assignment =>
      body.isEmpty && !hidden.contains lhs && inScope hidden rhs && lhsIdx.all (inScope hidden)
    | .for =>
      inScope hidden lower && inScope hidden upper && allWellScoped (hidden.filter (· ≠ loopvar)) body
    | .ifElse => inScope hidden cond && armsWellScoped hidden body
    | _ => body.isEmpty

def allWellScoped (hidden : List Bytes) : List Stmt → Bool
  | [] => true
  | s :: ss => wellScoped hidden s && allWellScoped (hiddenAfter hidden s) ss

/-- The arms of a conditional do not see each other's declarations. -/
def armsWellScoped (hidden : List Bytes) : List Stmt → Bool
  | [] => true
  | s :: ss => wellScoped hidden s && armsWellScoped hidden ss

end

mutual

/-- The names a statement binds: its declarations and its iterators. -/
def boundNames : Stmt → List Bytes
  | ⟨kind, declId, _, _, _, _, _, _, _, _, _, _, _, _, _, _, _, loopvar, _, _, _, body, _⟩ =>
    (if kind = .decl then [declId] else if kind = .for then [loopvar] else []) ++ allBoundNames body

def allBoundNames : List Stmt → List Bytes
  | [] => []
  | s :: ss => boundNames s ++ allBoundNames ss

end

/-! ## Run-time regions -/

/-- What the lowering decides from the environment. Each answer is one about the names in scope. -/
structure Context (V R : Type) where
  ops : Ops V R
  inWriteArray : Bool
  /-- How many iterations a run-time loop is followed. -/
  steps : ℕ
  /-- `fold_const`: the expression is replaced by its value. -/
  folds : Env V → Expr → Bool
  /-- `try_eval_pure` answers. -/
  evaluates : Env V → Expr → Bool
  /-- The bounds of the loop are known and its upper bound is invariant. -/
  boundsKnown : Env V → Stmt → Bool
  folds_local : ∀ hidden env env' e, inScope hidden e = true → AgreeOff hidden env env' →
    folds env e = folds env' e
  evaluates_local : ∀ hidden env env' e, inScope hidden e = true → AgreeOff hidden env env' →
    evaluates env e = evaluates env' e
  boundsKnown_local : ∀ hidden env env' s, wellScoped hidden s = true → AgreeOff hidden env env' →
    boundsKnown env s = boundsKnown env' s

abbrev Lower := Except LowerError

/-- A value and what the Jacobian calls behind it add to the target. -/
abbrev Lowered (V R : Type) := V × List R

/-- The environment behind a statement and the terms it pushed. -/
abbrev Outcome (V R : Type) := Env V × List R

def andThen (x : Lower (Outcome V R)) (f : Env V → Lower (Outcome V R)) :
    Lower (Outcome V R) := do
  let first ← x
  let second ← f first.1
  pure (second.1, first.2 ++ second.2)

variable (c : Context V R)

/-- A call of the library. A Jacobian call also gives its log Jacobian, except in `write_array`. -/
def Context.apply (name : Bytes) (raw : Bytes) (vs : List V) : Lower (Lowered V R) :=
  match callableTransform name with
  | some spec => do
    failIf (vs.length ≠ spec.arity) (.unsupported raw)
    let r ← c.ops.transform spec vs
    pure (r.1, if spec.direction = .jacobian ∧ c.inWriteArray = false then [r.2] else [])
  | none => do
    let v ← c.ops.call name vs
    pure (v, [])

mutual

/-- An expression inside a run-time region. -/
def runExpr (env : Env V) : Expr → Lower (Lowered V R)
  | ⟨kind, name, fnLib, _, litI, lit, _, args, _, _, _, _, raw⟩ =>
    match kind with
    | .var =>
      match env name with
      | some b => pure (b.value, [])
      | none => .error (.unknownVariable name)
    | .litInt => pure (c.ops.litInt litI, [])
    | .litReal => pure (c.ops.litReal lit, [])
    | .funApp =>
      if fnLib = .stanLib then do
        let vs ← runExprs env args
        let r ← c.apply name raw vs.1
        pure (r.1, vs.2 ++ r.2)
      else .error (.unsupported raw)
    | .indexed => do
      let vs ← runExprs env args
      let v ← c.ops.index vs.1
      pure (v, vs.2)
    | .promotion =>
      match args with
      | [e] => runExpr env e
      | _ => .error (.unsupported raw)
    | .ternaryIf =>
      match args with
      | [cond, yes, no] => do
        let v ← runExpr env cond
        let t ← c.ops.truth v.1
        let r ← if t then runExpr env yes else runExpr env no
        pure (r.1, v.2 ++ r.2)
      | _ => .error (.unsupported raw)
    | .eOr =>
      match args with
      | [a, b] => do
        let v ← runExpr env a
        let t ← c.ops.truth v.1
        if t then pure (c.ops.litInt 1, v.2) else do
          let w ← runExpr env b
          let u ← c.ops.truth w.1
          pure (c.ops.litInt (if u then 1 else 0), v.2 ++ w.2)
      | _ => .error (.unsupported raw)
    | .eAnd =>
      match args with
      | [a, b] => do
        let v ← runExpr env a
        let t ← c.ops.truth v.1
        if t then do
          let w ← runExpr env b
          let u ← c.ops.truth w.1
          pure (c.ops.litInt (if u then 1 else 0), v.2 ++ w.2)
        else pure (c.ops.litInt 0, v.2)
      | _ => .error (.unsupported raw)
    | _ => .error (.unsupported raw)

def runExprs (env : Env V) : List Expr → Lower (List V × List R)
  | [] => pure ([], [])
  | e :: es => do
    let v ← runExpr env e
    let vs ← runExprs env es
    pure (v.1 :: vs.1, v.2 ++ vs.2)

end

/-- The value of an expression. -/
def evalExpr (env : Env V) (e : Expr) : Lower V := Prod.fst <$> runExpr c env e

def evalInt (env : Env V) (e : Expr) : Lower ℤ := do
  let v ← evalExpr c env e
  c.ops.toInt v

/-- A loop that evaluates its upper bound before every iteration. -/
def runLoop (upper : Env V → Lower ℤ) (body : ℤ → Env V → Lower (Outcome V R)) :
    ℕ → ℤ → Env V → Lower (Outcome V R)
  | 0, _, _ => .error .diverges
  | fuel + 1, v, env => do
    let hi ← upper env
    if hi < v then pure (env, []) else andThen (body v env) (runLoop upper body fuel (v + 1))

/-- The bindings a declaration makes and an assignment changes are those of the region's registers. -/
def declare (known : Bool) (env : Env V) (base : Bytes) (dims : List Expr) (name : Bytes)
    (init : Option (Lower (Lowered V R))) : Lower (Outcome V R) := do
  let extents ← dims.mapM (evalExpr c env)
  match init with
  | some x =>
    let v ← x
    pure (env.set name (some ⟨v.1, known⟩), v.2)
  | none =>
    let v ← c.ops.fresh base extents
    pure (env.set name (some ⟨v, known⟩), [])

def assign (known : Bool) (env : Env V) (name : Bytes) (idx : List Expr) (rhs : Lower (Lowered V R)) :
    Lower (Outcome V R) := do
  let v ← rhs
  let at_ ← idx.mapM (evalExpr c env)
  match env name with
  | some old =>
    let next ← c.ops.assign old.value at_ v.1
    pure (env.set name (some ⟨next, known && (idx.isEmpty || old.known)⟩), v.2)
  | none => .error (.unknownVariable name)

mutual

/-- A statement inside a run-time region, with what it adds to the region's own target. -/
def runStmt (env : Env V) : Stmt → Lower (Outcome V R)
  | ⟨kind, declId, declType, _, hasInit, init, _, _, lhs, lhsIdx, rhs, target, _, _, _, _, _, loopvar,
      lower, upper, cond, body, raw⟩ =>
    match kind with
    | .skip => pure (env, [])
    | .block => runStmts env body
    | .sList => runStmts env body
    | .targetPE => do
      let v ← runExpr c env target
      pure (env, v.2 ++ [c.ops.sum v.1])
    | .decl =>
      declare c false env declType.base declType.dims declId
        (if hasInit then some (runExpr c env init) else none)
    | .assignment => assign c false env lhs lhsIdx (runExpr c env rhs)
    | .ifElse => do
      let v ← runExpr c env cond
      let t ← c.ops.truth v.1
      let r ← runArm env body (if t then 0 else 1)
      pure (r.1, v.2 ++ r.2)
    | .for => do
      let lo ← evalInt c env lower
      let r ← runLoop (fun env => evalInt c env upper)
        (fun v env => runStmts (env.set loopvar (some ⟨c.ops.litInt v, false⟩)) body) c.steps lo env
      pure (r.1.set loopvar (env loopvar), r.2)
    | _ => .error (.unsupported raw)

def runStmts (env : Env V) : List Stmt → Lower (Outcome V R)
  | [] => pure (env, [])
  | s :: ss => andThen (runStmt env s) fun env => runStmts env ss

/-- The arm at this place; a missing one does nothing. -/
def runArm (env : Env V) : List Stmt → ℕ → Lower (Outcome V R)
  | [], _ => pure (env, [])
  | s :: _, 0 => runStmt env s
  | _ :: ss, k + 1 => runArm env ss k

end

/-! ## The graph -/

/-- The names a region carries out: those it assigns that were bound before it. They hold run-time
values from then on. -/
def carryOut (s : Stmt) (before after : Env V) : Env V := fun n =>
  if n ∈ assignedNames s ∧ (before n).isSome then (after n).map fun b => { b with known := false }
  else before n

mutual

/-- `lower_expr`: an expression on the graph. A conditional that is not known becomes a region
without a target, which refuses a Jacobian call. -/
def lowerExpr (env : Env V) : Expr → Lower (Lowered V R)
  | ⟨kind, name, fnLib, fnPropto, litI, lit, litS, args, type, unsized, dataOnly, promoted, raw⟩ =>
    let e : Expr :=
      ⟨kind, name, fnLib, fnPropto, litI, lit, litS, args, type, unsized, dataOnly, promoted, raw⟩
    if c.folds env e then do
      let v ← evalExpr c env e
      pure (v, [])
    else
      match kind with
      | .funApp =>
        if fnLib = .stanLib then do
          let vs ← lowerExprs env args
          let r ← c.apply name raw vs.1
          pure (r.1, vs.2 ++ r.2)
        else .error (.unsupported raw)
      | .indexed => do
        let vs ← lowerExprs env args
        let v ← c.ops.index vs.1
        pure (v, vs.2)
      | .promotion =>
        match args with
        | [e] => lowerExpr env e
        | _ => .error (.unsupported raw)
      | .ternaryIf =>
        match args with
        | [cond, yes, no] =>
          if c.evaluates env cond then do
            let v ← evalExpr c env cond
            let t ← c.ops.truth v
            if t then lowerExpr env yes else lowerExpr env no
          else do
            failIf (exprHasJacobian e = true ∧ c.inWriteArray = false) (.unsupported raw)
            let v ← evalExpr c env e
            pure (v, [])
        | _ => .error (.unsupported raw)
      | .eOr => do
        failIf (exprHasJacobian e = true ∧ c.inWriteArray = false) (.unsupported raw)
        let v ← evalExpr c env e
        pure (v, [])
      | .eAnd => do
        failIf (exprHasJacobian e = true ∧ c.inWriteArray = false) (.unsupported raw)
        let v ← evalExpr c env e
        pure (v, [])
      | _ => do
        let v ← evalExpr c env e
        pure (v, [])

def lowerExprs (env : Env V) : List Expr → Lower (List V × List R)
  | [] => pure ([], [])
  | e :: es => do
    let v ← lowerExpr env e
    let vs ← lowerExprs env es
    pure (v.1 :: vs.1, v.2 ++ vs.2)

end

variable [Semiring R]

/-- `push_target_term`: the term carries the scale. -/
def pushTargetTerm (scale t : R) : List R := [scale * t]

/-- `lower_runtime_ifelse`. -/
def lowerRegion (scale : R) (env : Env V) (s : Stmt) : Lower (Outcome V R) := do
  let r ← runStmt c env s
  pure (carryOut s env r.1, if hasTargetPE s then pushTargetTerm scale r.2.sum else [])

/-- The iterations of a loop over `lo..hi`, in order. -/
def iterations (lo hi : ℤ) : List ℤ := (List.range (hi - lo + 1).toNat).map fun k : ℕ => lo + (k : ℤ)

/-- The body of a loop once for each value of the iterator. -/
def unroll (body : ℤ → Env V → Lower (Outcome V R)) : List ℤ → Env V → Lower (Outcome V R)
  | [], env => pure (env, [])
  | v :: vs, env => andThen (body v env) (unroll body vs)

/-- `fold_repeatable_target`: the body once, with the first value of the iterator. -/
def foldRepeatableTarget (body : R → Env V → Lower (Outcome V R)) (scale : R) (loopvar : Bytes) (lo hi : ℤ)
    (env : Env V) : Lower (Outcome V R) := do
  let r ← body (scale * ((hi - lo + 1).toNat : R)) (env.set loopvar (some ⟨c.ops.litInt lo, true⟩))
  pure (r.1.set loopvar none, r.2)

/-- The body once for each iteration. -/
def unrollLoop (body : Env V → Lower (Outcome V R)) (loopvar : Bytes) (lo hi : ℤ) (env : Env V) :
    Lower (Outcome V R) := do
  let r ← unroll (fun v env => body (env.set loopvar (some ⟨c.ops.litInt v, true⟩)))
    (iterations lo hi) env
  pure (r.1.set loopvar none, r.2)

mutual

/-- `lower_stmt` under a target scale. -/
def lowerStmt (scale : R) (env : Env V) : Stmt → Lower (Outcome V R)
  | ⟨kind, declId, declType, declDataOnly, hasInit, init, readTransform, readDims, lhs, lhsIdx, rhs,
      target, fnName, fnArgs, checkTransform, checkVarName, writeTransform, loopvar, lower, upper, cond,
      body, raw⟩ =>
    let s : Stmt :=
      ⟨kind, declId, declType, declDataOnly, hasInit, init, readTransform, readDims, lhs, lhsIdx, rhs,
        target, fnName, fnArgs, checkTransform, checkVarName, writeTransform, loopvar, lower, upper,
        cond, body, raw⟩
    match kind with
    | .skip => pure (env, [])
    | .block => lowerStmts scale env body
    | .sList => lowerStmts scale env body
    | .targetPE => do
      let v ← lowerExpr c env target
      pure (env, v.2 ++ pushTargetTerm scale (c.ops.sum v.1))
    | .decl =>
      declare c (!hasInit || c.evaluates env init) env declType.base declType.dims declId
        (if hasInit then some (lowerExpr c env init) else none)
    | .assignment => assign c (c.evaluates env rhs) env lhs lhsIdx (lowerExpr c env rhs)
    | .ifElse =>
      if c.evaluates env cond then do
        let v ← evalExpr c env cond
        let t ← c.ops.truth v
        lowerArm scale env body (if t then 0 else 1)
      else lowerRegion c scale env s
    | .for =>
      if c.boundsKnown env s then do
        let lo ← evalInt c env lower
        let hi ← evalInt c env upper
        if hi < lo then pure (env.set loopvar none, [])
        else if lo ≠ hi ∧ repeatableTargetBody loopvar body = true then
          foldRepeatableTarget c (fun scale env => lowerStmts scale env body) scale loopvar lo hi env
        else unrollLoop c (fun env => lowerStmts scale env body) loopvar lo hi env
      else lowerRegion c scale env s
    | _ => .error (.unsupported raw)

def lowerStmts (scale : R) (env : Env V) : List Stmt → Lower (Outcome V R)
  | [] => pure (env, [])
  | s :: ss => andThen (lowerStmt scale env s) fun env => lowerStmts scale env ss

def lowerArm (scale : R) (env : Env V) : List Stmt → ℕ → Lower (Outcome V R)
  | [], _ => pure (env, [])
  | s :: _, 0 => lowerStmt scale env s
  | _ :: ss, k + 1 => lowerArm scale env ss k

end

end TargetLoop

end Stanli
