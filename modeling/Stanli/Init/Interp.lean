import Stanli.Init.ReadParam

/-!
# Starting values

`InitInterp::eval` of `init_interp.cpp` with `unconstrain_leaf` of `unconstrain.cpp`: the values a caller
gives for the parameters, in serial order, turned into the free vector the sampler reads.

The functions of stan-math are parameters (`LeafMath`), and so are the bounds, as functions of the
parameters read before.  A section declares and reads one parameter after the other and writes the free
form of each.
-/

namespace Stanli.Init

open Mir (TransformKind)

/-! ## What stan-math computes -/

/-- The functions of stan-math that the two directions call.  `lbFree` and the other free functions
refuse a value out of support; `lbConstrain` and the other maps of one element are total, and the kernels
check the bounds by `less`, `finite` and `positiveFinite`. -/
structure LeafMath (V : Type) where
  zero : V
  one : V
  /-- What a read past the end of a vector finds. -/
  past : V
  ofInt : ℤ → V
  isNegInf : V → Bool
  isPosInf : V → Bool
  less : V → V → Bool
  finite : V → Bool
  positiveFinite : V → Bool
  lbFree : V → V → Except String V
  ubFree : V → V → Except String V
  lubFree : V → V → V → Except String V
  offsetMultiplierFree : V → V → V → Except String V
  /-- `simplex_free` and the other free functions of one leaf with these dimensions. -/
  free : TransformKind → List ℕ → List V → Except String (List V)
  lbConstrain : V → V → V
  ubConstrain : V → V → V
  lubConstrain : V → V → V → V
  offsetMultiplierConstrain : V → V → V → V
  /-- `simplex_constrain` and the other constrain functions, with the dimensions they are told. -/
  constrain : ConstrainOp → List ℤ → List V → Except String (List V)

/-- A refusal of the runtime's own, or an exception of stan-math. -/
inductive InitError
  | compile (what : String)
  | math (what : String)
deriving DecidableEq, Repr

section

variable {V : Type} (m : LeafMath V)

/-! ## One leaf -/

/-- One transform argument for element `i` of the leaf.  Length one broadcasts. -/
def argAt (arg : List V) (i : ℕ) (what : String) : Except InitError V :=
  if arg.length = 1 then .ok (arg.getD 0 m.past)
  else if i ≥ arg.length then .error (.compile (what ++ " bound is shorter than the value"))
  else .ok (arg.getD i m.past)

def needArgs (args : List (List V)) (n : ℕ) (what : String) : Except InitError Unit :=
  failIf (args.length ≠ n)
    (.compile (what ++ " expects " ++ toString n ++ " transform arguments"))

/-- `out[i]` of an elementwise transform. -/
def unconstrainElement (kind : TransformKind) (args : List (List V)) (i : ℕ) (x : V) :
    Except InitError V :=
  match kind with
  | .identity => .ok x
  | .lower => do
    needArgs args 1 "lower bound"
    let lb ← argAt m (args.getD 0 []) i "lower"
    (m.lbFree x lb).mapError .math
  | .upper => do
    needArgs args 1 "upper bound"
    let ub ← argAt m (args.getD 0 []) i "upper"
    (m.ubFree x ub).mapError .math
  | .lowerUpper => do
    needArgs args 2 "lower and upper bounds"
    let lb ← argAt m (args.getD 0 []) i "lower"
    let ub ← argAt m (args.getD 1 []) i "upper"
    (m.lubFree x lb ub).mapError .math
  -- a lone offset or multiplier is the pair with the other side at its identity
  | .offset => do
    needArgs args 1 "offset"
    let offset ← argAt m (args.getD 0 []) i "offset"
    (m.offsetMultiplierFree x offset m.one).mapError .math
  | .multiplier => do
    needArgs args 1 "multiplier"
    let multiplier ← argAt m (args.getD 0 []) i "multiplier"
    (m.offsetMultiplierFree x m.zero multiplier).mapError .math
  | _ => do
    needArgs args 2 "offset and multiplier"
    let offset ← argAt m (args.getD 0 []) i "offset"
    let multiplier ← argAt m (args.getD 1 []) i "multiplier"
    (m.offsetMultiplierFree x offset multiplier).mapError .math

/-- `unconstrain_leaf`: what it writes to `out`. -/
def unconstrainLeaf (kind : TransformKind) (leafDims : List ℕ) (constrained : List V)
    (args : List (List V)) : Except InitError (List V) := do
  let conLen := leafDims.prod
  let freeLen ← (freeLeafSize kind (leafDims.map Nat.cast)).mapError .compile
  if elementwise kind then
    (List.range conLen).mapM fun i => unconstrainElement m kind args i (constrained.getD i m.past)
  else do
    needArgs args 0 "a structured transform"
    let free ← (m.free kind leafDims constrained).mapError .math
    pure ((List.range freeLen.toNat).map fun i => free.getD i m.past)

/-! ## One parameter -/

/-- A container bound at one serial position of the value it bounds. -/
def boundAt (e : List V) (serial : ℕ) (name : String) : Except InitError V :=
  if serial ≥ e.length then
    .error (.compile ("a bound of " ++ name ++ " is shorter than the value it bounds"))
  else .ok (e.getD serial m.past)

/-- A scalar bound, which broadcasts across the leaf. -/
def scalarBound (e : List V) (name : String) : Except InitError (List V) :=
  if e = [] then .error (.compile ("a bound of " ++ name ++ " evaluated to nothing"))
  else .ok [e.getD 0 m.past]

/-- stan-math describes the violation but not whose it is. -/
def InitError.naming (name : String) : InitError → InitError
  | .compile what => .compile what
  | .math what => .compile (what ++ " (starting value for " ++ name ++ ")")

/-- The free form of batch `b`.  A container bound is gathered through the same permutation as the
value. -/
def freeBatch (p : InitParam) (kind : TransformKind) (value : List V) (bounds : List (List V)) (b : ℕ) :
    Except InitError (List V) := do
  let dims := leafDims p.dims p.leafRank
  let leaf := (List.range dims.prod).map fun j =>
    value.getD (serialIndex p.dims p.leafRank b j) m.past
  let gathered ← bounds.mapM fun e =>
    if 1 < e.length then
      (List.range dims.prod).mapM fun j => boundAt m e (serialIndex p.dims p.leafRank b j) p.name
    else .ok []
  let args ← (bounds.zip gathered).mapM fun e =>
    if 1 < e.1.length then .ok e.2 else scalarBound m e.1 p.name
  (unconstrainLeaf m kind dims leaf args).mapError (.naming p.name)

/-- What a free write of a parameter appends to the free vector. -/
def freeWrite (p : InitParam) (kind : TransformKind) (value : List V) (bounds : List (List V)) :
    Except InitError (List V) := do
  let innerCon := (leafDims p.dims p.leafRank).prod
  let _innerFree ← (freeLeafSize kind ((leafDims p.dims p.leafRank).map Nat.cast)).mapError .compile
  let batches := if innerCon = 0 then 0 else p.constrainedLen / innerCon
  let parts ← (List.range batches).mapM (freeBatch m p kind value bounds)
  pure parts.flatten

/-! ## The section -/

/-- What has been read so far, in serial order. -/
abbrev Env (V : Type) := List (String × List V)

/-- A bound: an expression over data and over the parameters already read. -/
abbrev BoundExpr (V : Type) := Env V → Except InitError (List V)

/-- The statements of the section. -/
inductive InitStmt (V : Type)
  | read (name : String)
  | write (name : String) (kind : TransformKind) (bounds : List (BoundExpr V))

/-- A value of the caller's: real or integer. -/
structure Entry (V : Type) where
  r : List V := []
  i : List ℤ := []
deriving DecidableEq

/-- Integers are converted where no reals are given. -/
def Entry.values (e : Entry V) : List V := if e.r = [] then e.i.map m.ofInt else e.r

/-- One statement: what has been read, and the free vector so far. -/
def initStep (params : List InitParam) (shaped : Env V) (st : InitStmt V) (s : Env V × List V) :
    Except InitError (Env V × List V) :=
  match st with
  | .read name =>
    match shaped.lookup name with
    | none => .error (.compile ("unknown data variable " ++ name))
    | some value => .ok (s.1 ++ [(name, value)], s.2)
  | .write name kind boundExprs =>
    -- `by_name` keeps the last parameter of a name
    match params.reverse.find? (·.name = name) with
    | none => .error (.compile ("the init section writes unknown parameter " ++ name))
    | some p =>
      match s.1.lookup name with
      | none => .error (.compile ("no constrained value was built for " ++ name))
      | some value => do
        failIf (value.length ≠ p.constrainedLen)
          (.compile (name ++ " built " ++ toString value.length ++ " constrained values, expected " ++
            toString p.constrainedLen))
        let bounds ← boundExprs.mapM (· s.1)
        let free ← freeWrite m p kind value bounds
        pure (s.1, s.2 ++ free)

def initRun (params : List InitParam) (shaped : Env V) :
    List (InitStmt V) → Env V × List V → Except InitError (Env V × List V)
  | [], s => .ok s
  | st :: body, s => do
    let s' ← initStep m params shaped st s
    initRun params shaped body s'

/-- The checks of one parameter before anything is interpreted. -/
def checkGiven (inits : List (String × Entry V)) (p : InitParam) : Except InitError Unit :=
  match inits.lookup p.name with
  | none => .error (.compile ("no starting value for parameter " ++ p.name))
  | some e =>
    let got := max e.r.length e.i.length
    failIf (got ≠ p.constrainedLen)
      (.compile (p.name ++ " needs " ++ toString p.constrainedLen ++ " starting values, got " ++
        toString got))

/-- The values given for a parameter. -/
def given (inits : List (String × Entry V)) (name : String) : List V :=
  ((inits.lookup name).getD {}).values m

/-- `InitInterp::eval`. -/
def eval (params : List InitParam) (body : List (InitStmt V)) (inits : List (String × Entry V)) :
    Except InitError (List V) := do
  let _checked ← params.mapM (checkGiven inits)
  let _declared ← inits.mapM fun e =>
    failIf (∀ p ∈ params, p.name ≠ e.1) (InitError.compile (e.1 ++ " is not a parameter of this model"))
  let totalFree := (params.map InitParam.freeLen).sum
  let s ← initRun m params (params.map fun p => (p.name, given m inits p.name)) body ([], [])
  failIf (s.2.length ≠ totalFree)
    (.compile ("the init section produced " ++ toString s.2.length ++ " free values, expected " ++
      toString totalFree))
  pure s.2

end

end Stanli.Init
