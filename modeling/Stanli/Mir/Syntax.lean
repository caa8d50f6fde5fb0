import Mathlib.Data.Nat.Log
import Mathlib.Tactic.Ring

namespace Stanli

/-! ### Binary64 values as bits

A double is its 64 bits. The conversion of an integer is exact below `2 ^ 53`. -/

/-- A binary64 value, as its bits. -/
structure Binary64 where
  bits : UInt64 := 0
  deriving DecidableEq

namespace Binary64

/-- The double of an integer whose magnitude fits the significand. -/
def ofInt (i : ℤ) : Binary64 :=
  if i = 0 then ⟨0⟩
  else
    let m := i.natAbs
    let e := Nat.log2 m
    ⟨UInt64.ofNat ((if i < 0 then 2 ^ 63 else 0) + (e + 1023) * 2 ^ 52 +
      (m - 2 ^ e) * 2 ^ (52 - e))⟩

end Binary64

/-! ### The MIR of the runtime

The records that both readers of the compiler's output build. A string is its bytes. -/

abbrev Bytes := List UInt8

instance : LawfulBEq Bytes := inferInstanceAs (LawfulBEq (List UInt8))

/-- The bytes of an ASCII literal. -/
def ascii (s : String) : Bytes :=
  s.toList.map fun c => UInt8.ofNat c.toNat

namespace Mir

inductive UnsizedLeaf
  | unknown | int | real | complex | vector | rowVector | matrix
  deriving DecidableEq

inductive ExprKind
  | var | litInt | litReal | litStr | funApp | promotion | indexed | ternaryIf | eOr | eAnd
  | unsupported
  deriving DecidableEq

inductive FnLib
  | stanLib | internal | userDefined
  deriving DecidableEq

inductive TransformKind
  | identity | lower | upper | lowerUpper | offset | multiplier | offsetMultiplier | simplex
  | ordered | positiveOrdered | choleskyCorr | unitVector | sumToZero | correlation | covariance
  | choleskyCov | stochasticColumn | stochasticRow | unsupported
  deriving DecidableEq

inductive StmtKind
  | decl | assignment | targetPE | block | sList | for | ifElse | while | nrFunApp | return | break
  | continue | skip | unsupported
  deriving DecidableEq

structure UnsizedView where
  depth : UInt8 := 0
  leaf : UnsizedLeaf := .unknown
  deriving DecidableEq

structure Expr where
  kind : ExprKind := .unsupported
  name : Bytes := []
  fnLib : FnLib := .stanLib
  fnPropto : Bool := false
  litI : ℤ := 0
  lit : Binary64 := {}
  litS : Bytes := []
  args : List Expr := []
  type : Bytes := []
  unsized : UnsizedView := {}
  dataOnly : Bool := false
  promoted : Bool := false
  raw : Bytes := []

structure Transform where
  kind : TransformKind := .identity
  args : List Expr := []
  raw : Bytes := []

structure SizedType where
  base : Bytes := []
  dims : List Expr := []
  elemBase : Bytes := []
  raw : Bytes := []
  unsized : UnsizedView := {}

structure Stmt where
  kind : StmtKind := .unsupported
  declId : Bytes := []
  declType : SizedType := {}
  declDataOnly : Bool := false
  hasInit : Bool := false
  init : Expr := {}
  readTransform : Option Transform := none
  readDims : List Expr := []
  lhs : Bytes := []
  lhsIdx : List Expr := []
  rhs : Expr := {}
  target : Expr := {}
  fnName : Bytes := []
  fnArgs : List Expr := []
  checkTransform : Option Transform := none
  checkVarName : Bytes := []
  writeTransform : Option Transform := none
  loopvar : Bytes := []
  lower : Expr := {}
  upper : Expr := {}
  cond : Expr := {}
  body : List Stmt := []
  raw : Bytes := []

structure FunDef where
  name : Bytes := []
  argNames : List Bytes := []
  argTypes : List Bytes := []
  argViews : List UnsizedView := []
  argDataOnly : List Bool := []
  body : List Stmt := []

structure Program where
  inputVars : List (Bytes × SizedType) := []
  prepareData : List Stmt := []
  logProb : List Stmt := []
  generateQuantities : List Stmt := []
  hasTransformInits : Bool := false
  transformInits : List Stmt := []
  funDefs : List FunDef := []
  outputVars : List Bytes := []
  nesting : ℕ := 0

end Mir

end Stanli
