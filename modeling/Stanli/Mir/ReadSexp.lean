import Stanli.Mir.Sexp

namespace Stanli.Mir

open Sexp

/-! ### Expressions from s-expressions

`read_expr` of `mir_reader.cpp`. -/

/-- What the reader takes from its platform: how deep a thread can recurse, the number conversions
`std::stol` and `std::stod`, which reject what they cannot read, and the one from `long` to
`double`. -/
structure Host where
  nestingLimit : ℕ
  stol : Bytes → Option ℤ
  stod : Bytes → Option Binary64
  toDouble : ℤ → Binary64

/-- The result of a conversion that may reject. -/
def converted {α : Type} : Option α → Checked α
  | none => .error .conversion
  | some value => .ok value

def unsizedLeaf (atom : Bytes) : UnsizedLeaf :=
  if atom = ascii "UInt" then .int
  else if atom = ascii "UReal" then .real
  else if atom = ascii "UComplex" then .complex
  else if atom = ascii "UVector" then .vector
  else if atom = ascii "URowVector" then .rowVector
  else if atom = ascii "UMatrix" then .matrix
  else .unknown

/-- The loop of `read_unsized`, where at most `fuel` more array levels may follow. -/
def readUnsizedAt : ℕ → UInt8 → Node → Checked UnsizedView
  | fuel, depth, n =>
    if !n.isAtom && n.headIs (ascii "UArray") && n.size == 2 then
      match fuel with
      | 0 => .error (.runtime (ascii "mir: unsized array nesting is too deep"))
      | fuel + 1 => do
        let inner ← n.get 1
        readUnsizedAt fuel (depth + 1) inner
    else
      .ok { depth, leaf := if n.isAtom then unsizedLeaf n.text else .unknown }

def readUnsized (n : Node) : Checked UnsizedView :=
  readUnsizedAt 255 0 n

/-- The results of a reader over the items of a list. -/
def readAll {α : Type} (read : Node → Checked α) : List Node → Checked (List α)
  | [] => .ok []
  | n :: ns => do
    let x ← read n
    let xs ← readAll read ns
    pure (x :: xs)

/-- An index descriptor with the given name and the operands at the given positions. -/
def indexWith (readExpr : Node → Checked Expr) (n : Node) (name : String) (operands : List ℕ) :
    Checked Expr := do
  let args ← operands.mapM fun i => do
    let operand ← n.get i
    readExpr operand
  pure { kind := .funApp, name := ascii name, args }

def readIndex (readExpr : Node → Checked Expr) (n : Node) : Checked Expr :=
  if n.isAtom && n.text == ascii "All" then .ok { kind := .funApp, name := ascii "IndexAll" }
  else if n.headIs (ascii "Single") then indexWith readExpr n "IndexSingle" [1]
  else if n.headIs (ascii "Between") then indexWith readExpr n "IndexBetween" [1, 2]
  else if n.headIs (ascii "Upfrom") then indexWith readExpr n "IndexUpfrom" [1]
  else if n.headIs (ascii "MultiIndex") then indexWith readExpr n "IndexMulti" [1]
  else .ok { kind := .unsupported, raw := dump n kDumpBudget }

/-- `(Lit Kind spelling)`. -/
def readLit (H : Host) (p : Node) : Checked Expr := do
  let k ← p.get 1
  let v ← p.get 2
  if k.text = ascii "Int" then
    let litI ← converted (H.stol v.text)
    pure { kind := .litInt, litI, lit := H.toDouble litI }
  else if k.text = ascii "Real" then
    let lit ← converted (H.stod v.text)
    pure { kind := .litReal, lit }
  else pure { kind := .litStr, litS := v.text }

/-- The propto flag, spelled the same on library and user functions. -/
def readPropto (kind : Node) : Checked Bool := do
  let suffix ← kind.get 2
  if !suffix.isAtom && (suffix.headIs (ascii "FnLpdf") || suffix.headIs (ascii "FnLpmf")) then
    let flag ← suffix.get 1
    pure (flag.text == ascii "true")
  else pure false

/-- The function of a call, or nothing for a kind of function the reader does not know. -/
def readCallee (kind : Node) : Checked (Option Expr) :=
  if kind.headIs (ascii "StanLib") then do
    let name ← kind.get 1
    let fnPropto ← readPropto kind
    pure (some { kind := .funApp, fnLib := .stanLib, name := name.text, fnPropto })
  else if kind.headIs (ascii "CompilerInternal") then do
    let callee ← kind.get 1
    let name ← if callee.isAtom then pure callee else callee.get 0
    pure (some { kind := .funApp, fnLib := .internal, name := name.text,
                 raw := if callee.isAtom then [] else dump callee kDumpBudget })
  else if kind.headIs (ascii "UserDefined") then do
    let name ← kind.get 1
    let fnPropto ← readPropto kind
    pure (some { kind := .funApp, fnLib := .userDefined, name := name.text, fnPropto })
  else .ok none

/-- `read_expr_pattern`. -/
def readExprPattern (H : Host) (readExpr : Node → Checked Expr) (p : Node) : Checked Expr :=
  if p.headIs (ascii "Var") then do
    let name ← p.get 1
    pure { kind := .var, name := name.text }
  else if p.headIs (ascii "Lit") then readLit H p
  else if p.headIs (ascii "FunApp") then do
    let kind ← p.get 1
    let callee ← readCallee kind
    match callee with
    | none => pure { kind := .unsupported, raw := dump p kDumpBudget }
    | some e =>
      let args ← readAll readExpr ((p.kids.drop 2).flatMap Node.kids)
      pure { e with args }
  else if p.headIs (ascii "Promotion") then do
    -- transparent: keep the inner expression, adopt the promoted type later
    let inner ← p.get 1
    let e ← readExpr inner
    pure { e with promoted := true }
  else if p.headIs (ascii "TernaryIf") then do
    let args ← readAll readExpr (p.kids.drop 1)
    pure { kind := .ternaryIf, args }
  else if p.headIs (ascii "EOr") || p.headIs (ascii "EAnd") then do
    let args ← readAll readExpr (p.kids.drop 1)
    pure { kind := if p.headIs (ascii "EOr") then .eOr else .eAnd, args }
  else if p.headIs (ascii "Indexed") then do
    let first ← p.get 1
    let base ← readExpr first
    let indices ← readAll (readIndex readExpr) ((p.kids.drop 2).flatMap Node.kids)
    pure { kind := .indexed, args := base :: indices }
  else .ok { kind := .unsupported, raw := dump p kDumpBudget }

/-- The type an expression's metadata spell. -/
def readType (e : Expr) (m : Node) : Checked Expr :=
  match m.field (ascii "type_") with
  | none => .ok e
  | some t => do
    let type ← t.get 1
    let unsized ← readUnsized type
    if unsized.leaf ≠ .unknown then
      pure { e with unsized, type := if unsized.depth ≠ 0 then ascii "UArray" else type.text }
    else pure { e with unsized, type := [], raw := dump type kDumpBudget }

def readAdlevel (e : Expr) (m : Node) : Checked Expr :=
  match m.field (ascii "adlevel") with
  | none => .ok e
  | some a => do
    let level ← a.get 1
    pure { e with dataOnly := level.isAtom && level.text == ascii "DataOnly" }

/-- The metadata of an expression. -/
def readExprMeta (e : Expr) (n : Node) : Checked Expr :=
  match n.field (ascii "meta") with
  | none => .ok e
  | some data => do
    let m ← data.get 1
    if m.isAtom then pure e
    else
      let e ← readType e m
      readAdlevel e m

/-- `read_expr` where at most `fuel` more expressions can nest. -/
def readExprAt (H : Host) : ℕ → Node → Checked Expr
  | 0, _ => .error (.nestingTooDeep H.nestingLimit)
  | fuel + 1, n =>
    match n.field (ascii "pattern") with
    | none => .ok { kind := .unsupported, raw := dump n kDumpBudget }
    | some pat => do
      let p ← pat.get 1
      let e ← readExprPattern H (readExprAt H fuel) p
      readExprMeta e n

/-- `read_expr` on an s-expression. -/
def readExpr (H : Host) (n : Node) : Checked Expr :=
  readExprAt H H.nestingLimit n

end Stanli.Mir
