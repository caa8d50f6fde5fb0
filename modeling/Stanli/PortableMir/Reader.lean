import Stanli.Lib.Reading
import Stanli.PortableMir.Envelope

namespace Stanli.PortableMir

/-! ### The reader -/

def kMaxStringBytes : ℕ := 16 * 1024 * 1024

def kMaxTotalStringBytes : ℕ := 256 * 1024 * 1024

def kMaxListStorageBytes : ℕ := 256 * 1024 * 1024

def kMaxListItems : ℕ := 1000000

def kMaxValues : ℕ := 10000000

/-- The types that the decoder keeps lists of. -/
inductive Item
  | input | stmt | expr | funDef | string | view | bool

/-- What the platform decides: how deep a thread can recurse, and how much an item of a list
takes. -/
structure Target where
  nestingLimit : ℕ
  sizeOf : Item → ℕ
  sizeOf_pos : ∀ item, 0 < sizeOf item

/-- The class `Reader`, with the bytes that are left in place of the whole payload. -/
structure Reader where
  rest : Bytes
  position : ℕ := 0
  values : ℕ := 0
  totalStringBytes : ℕ := 0
  listStorageBytes : ℕ := 0
  depth : ℕ := 0
  peak : ℕ := 0

abbrev Read (α : Type) := StateT Reader (Except ReadError) α

def Reader.create (bytes : Bytes) : Except ReadError Reader :=
  if bytes.length > kMaxInputBytes then .error (.wire 0 "input exceeds 268435456 bytes")
  else .ok { rest := bytes }

def fail {α : Type} (message : String) : Read α :=
  fun s => .error (.wire s.position message)

/-- Fail with `message` where the condition holds of the state. -/
def failWhen (condition : Reader → Bool) (message : String) : Read Unit :=
  fun s => if condition s then .error (.wire s.position message) else .ok ((), s)

def finish : Read Unit :=
  failWhen (fun s => !s.rest.isEmpty) "trailing bytes"

def atEnd : Read Bool :=
  fun s => .ok (s.rest.isEmpty, s)

def peakDepth : Read ℕ :=
  fun s => .ok (s.peak, s)

def require (count : ℕ) : Read Unit :=
  failWhen (fun s => count > s.rest.length) "truncated input"

def countValue : Read Unit := do
  modify fun s => { s with values := s.values + 1 }
  failWhen (fun s => s.values > kMaxValues) "document exceeds 10000000 values"

/-- The next bytes, left in place. -/
def peek (count : ℕ) : Read Bytes :=
  fun s => .ok (s.rest.take count, s)

/-- Step over the next bytes. -/
def advance (count : ℕ) : Read Unit :=
  modify fun s => { s with rest := s.rest.drop count, position := s.position + count }

/-- A scalar of `count` bytes. -/
def scalar (count : ℕ) : Read Bytes := do
  countValue
  require count
  let bytes ← peek count
  advance count
  pure bytes

def u8 : Read UInt8 := do
  let bytes ← scalar 1
  pure (bytes.headD 0)

def boolean : Read Bool := do
  let value ← u8
  failWhen (fun _ => value > 1) "boolean is not 0 or 1"
  pure (value ≠ 0)

def u32 : Read ℕ := do
  let bytes ← scalar 4
  pure (joinBytes 0 0 bytes)

def i32 : Read ℤ := do
  let bits ← u32
  pure (if bits < 2 ^ 31 then bits else bits - 2 ^ 32)

def f64 : Read Binary64 := do
  let bytes ← scalar 8
  pure ⟨UInt64.ofNat (joinBytes 0 0 bytes)⟩

/-- Whether `Reader::validate_utf8` lets a string pass. -/
def Reader.validateUtf8 : Bytes → Bool
  | [] => true
  | first :: rest =>
    if first < 128 then Reader.validateUtf8 rest
    else if first ≥ 194 ∧ first ≤ 223 then
      match rest with
      | second :: rest => if !continuation second then false else Reader.validateUtf8 rest
      | [] => false
    else if first ≥ 224 ∧ first ≤ 239 then
      match rest with
      | second :: third :: rest =>
        if !continuation third ||
            (if first = 224 then second < 160 ∨ second > 191
            else if first = 237 then second < 128 ∨ second > 159
            else !continuation second) then false
        else Reader.validateUtf8 rest
      | _ => false
    else if first ≥ 240 ∧ first ≤ 244 then
      match rest with
      | second :: third :: fourth :: rest =>
        if (if first = 240 then second < 144 ∨ second > 191
            else if first = 244 then second < 128 ∨ second > 143
            else !continuation second) || !continuation third || !continuation fourth then false
        else Reader.validateUtf8 rest
      | _ => false
    else false

def string : Read Bytes := do
  let size ← u32
  failWhen (fun _ => size > kMaxStringBytes) "string exceeds 16777216 bytes"
  failWhen (fun s => size > kMaxTotalStringBytes - s.totalStringBytes)
    "decoded strings exceed 268435456 bytes"
  require size
  let value ← peek size
  failWhen (fun _ => !Reader.validateUtf8 value) "invalid UTF-8 string"
  advance size
  modify fun s => { s with totalStringBytes := s.totalStringBytes + size }
  pure value

def listSize : Read ℕ := do
  let size ← u32
  failWhen (fun _ => size > kMaxListItems) "list exceeds 1000000 items"
  failWhen (fun s => size > s.rest.length) "list count exceeds remaining input"
  pure size

/-- The constructor of `Depth`. -/
def enter (T : Target) : Read Unit :=
  fun s =>
    if s.depth ≥ 2 * T.nestingLimit then .error (.nestingTooDeep T.nestingLimit)
    else .ok ((), { s with depth := s.depth + 1, peak := max s.peak (s.depth + 1) })

/-- The destructor of `Depth`. -/
def leave : Read Unit :=
  modify fun s => { s with depth := s.depth - 1 }

/-- A function body that opens with a `Depth`. -/
def withDepth {α : Type} (T : Target) (body : Read α) : Read α := do
  enter T
  let value ← body
  leave
  pure value

/-- The body of `list` inside its scope. -/
def listItems {α : Type} (T : Target) (item : Item) (read : Read α) : Read (List α) := do
  let size ← listSize
  failWhen (fun s => size > (kMaxListStorageBytes - s.listStorageBytes) / T.sizeOf item)
    "decoded list storage exceeds 268435456 bytes"
  modify fun s => { s with listStorageBytes := s.listStorageBytes + size * T.sizeOf item }
  readTimes read size

def list {α : Type} (T : Target) (item : Item) (read : Read α) : Read (List α) :=
  withDepth T (listItems T item read)

/-! ### Tags -/

def readTag {α : Type} (tag : UInt8) (values : List α) (diagnostic : String) : Read α :=
  match values[tag.toNat]? with
  | none => fail diagnostic
  | some value => pure value

def kLeafTags : List Mir.UnsizedLeaf :=
  [.unknown, .int, .real, .complex, .vector, .rowVector, .matrix]

def kExprTags : List Mir.ExprKind :=
  [.var, .litInt, .litReal, .litStr, .funApp, .promotion, .indexed, .ternaryIf, .eOr, .eAnd,
    .unsupported]

def kLibraryTags : List Mir.FnLib :=
  [.stanLib, .internal, .userDefined]

def kTransformTags : List Mir.TransformKind :=
  [.identity, .lower, .upper, .lowerUpper, .offset, .multiplier, .offsetMultiplier, .simplex,
    .ordered, .positiveOrdered, .choleskyCorr, .unitVector, .sumToZero, .correlation, .covariance,
    .choleskyCov, .unsupported]

def kStmtTags : List Mir.StmtKind :=
  [.decl, .assignment, .targetPE, .block, .sList, .for, .ifElse, .while, .nrFunApp, .return, .break,
    .continue, .skip, .unsupported]

/-! ### Expressions and types -/

def readView : Read Mir.UnsizedView := do
  let depth ← u8
  let tag ← u8
  let leaf ← readTag tag kLeafTags "unknown unsized-view tag"
  pure { depth, leaf }

def readMeta (value : Mir.Expr) : Read Mir.Expr := do
  let type ← string
  let unsized ← readView
  let dataOnly ← boolean
  let promoted ← boolean
  let raw ← string
  pure { value with type, unsized, dataOnly, promoted, raw }

/-- The fields that are active for a kind of expression. -/
def readExprFields (kind : Mir.ExprKind) (readExprs : Read (List Mir.Expr)) : Read Mir.Expr :=
  match kind with
  | .var => do
    let name ← string
    pure { kind, name }
  | .litInt => do
    let litI ← i32
    pure { kind, litI, lit := Binary64.ofInt litI }
  | .litReal => do
    let lit ← f64
    pure { kind, lit }
  | .litStr => do
    let litS ← string
    pure { kind, litS }
  | .funApp => do
    let library ← u8
    let fnLib ← readTag library kLibraryTags "unknown function-library tag"
    let name ← string
    let fnPropto ← boolean
    let args ← readExprs
    pure { kind, fnLib, name, fnPropto, args }
  | .promotion | .indexed | .ternaryIf | .eOr | .eAnd => do
    let args ← readExprs
    pure { kind, args }
  | .unsupported => pure { kind }

/-- `read_expr` where at most `fuel` more expressions can nest; the scopes that are left bound
them. -/
def readExprAt (T : Target) : ℕ → Read Mir.Expr
  | 0 => fun _ => .error (.nestingTooDeep T.nestingLimit)
  | fuel + 1 => withDepth T do
    let tag ← u8
    let kind ← readTag tag kExprTags "unknown expression tag"
    let value ← readExprFields kind (list T .expr (readExprAt T fuel))
    readMeta value

def readExpr (T : Target) : Read Mir.Expr :=
  readExprAt T (2 * T.nestingLimit)

def readExprs (T : Target) : Read (List Mir.Expr) :=
  list T .expr (readExpr T)

def readTransform (T : Target) : Read Mir.Transform :=
  withDepth T do
    let tag ← u8
    let kind ← readTag tag kTransformTags "unknown transform tag"
    let args ← readExprs T
    let raw ← string
    let kind :=
      if kind = .unsupported then
        if raw = ascii "StochasticColumn" then .stochasticColumn
        else if raw = ascii "StochasticRow" then .stochasticRow
        else kind
      else kind
    pure { kind, args, raw }

def readOptionalTransform (T : Target) : Read (Option Mir.Transform) := do
  let present ← u8
  failWhen (fun _ => present > 1) "optional marker is not 0 or 1"
  if present = 0 then pure none
  else do
    let transform ← readTransform T
    pure (some transform)

def readSized (T : Target) : Read Mir.SizedType :=
  withDepth T do
    let base ← string
    let dims ← readExprs T
    let elemBase ← string
    let raw ← string
    pure { base, dims, elemBase, raw }

/-! ### Statements -/

/-- A value that is read exactly when its flag is set. -/
def readFlagged (flag : Bool) (read : Read Mir.Expr) : Read Mir.Expr :=
  if flag then read else pure {}

/-- The fields that are active for a kind of statement. -/
def readStmtFields (T : Target) (kind : Mir.StmtKind) (readStmts : Read (List Mir.Stmt)) :
    Read Mir.Stmt :=
  match kind with
  | .decl => do
    let declId ← string
    let declType ← readSized T
    let declDataOnly ← boolean
    let hasInit ← boolean
    let init ← readFlagged hasInit (readExpr T)
    let readTransform ← readOptionalTransform T
    let readDims ← readExprs T
    let raw ← string
    pure { kind, declId, declType, declDataOnly, hasInit, init, readTransform, readDims, raw }
  | .assignment => do
    let lhs ← string
    let lhsIdx ← readExprs T
    let rhs ← readExpr T
    let raw ← string
    pure { kind, lhs, lhsIdx, rhs, raw }
  | .targetPE => do
    let target ← readExpr T
    let raw ← string
    pure { kind, target, raw }
  | .block | .sList => do
    let body ← readStmts
    let raw ← string
    pure { kind, body, raw }
  | .for => do
    let loopvar ← string
    let lower ← readExpr T
    let upper ← readExpr T
    let body ← readStmts
    let raw ← string
    pure { kind, loopvar, lower, upper, body, raw }
  | .ifElse | .while => do
    let cond ← readExpr T
    let body ← readStmts
    let raw ← string
    pure { kind, cond, body, raw }
  | .nrFunApp => do
    let fnName ← string
    let fnArgs ← readExprs T
    let checkTransform ← readOptionalTransform T
    let checkVarName ← string
    let raw ← string
    -- FnCheck and FnWriteParam share the optional transform of the wire.
    if fnName = ascii "FnWriteParam" then
      pure { kind, fnName, fnArgs, writeTransform := checkTransform, checkVarName, raw }
    else pure { kind, fnName, fnArgs, checkTransform, checkVarName, raw }
  | .return => do
    let hasInit ← boolean
    let rhs ← readFlagged hasInit (readExpr T)
    let raw ← string
    pure { kind, hasInit, rhs, raw }
  | .break | .continue => pure { kind }
  | .skip | .unsupported => do
    let raw ← string
    pure { kind, raw }

/-- `read_stmt` where at most `fuel` more statements can nest. -/
def readStmtAt (T : Target) : ℕ → Read Mir.Stmt
  | 0 => fun _ => .error (.nestingTooDeep T.nestingLimit)
  | fuel + 1 => withDepth T do
    let tag ← u8
    let kind ← readTag tag kStmtTags "unknown statement tag"
    readStmtFields T kind (list T .stmt (readStmtAt T fuel))

def readStmt (T : Target) : Read Mir.Stmt :=
  readStmtAt T (2 * T.nestingLimit)

def readStmts (T : Target) : Read (List Mir.Stmt) :=
  list T .stmt (readStmt T)

/-! ### Programs -/

def readStrings (T : Target) : Read (List Bytes) :=
  list T .string string

def readFun (T : Target) : Read Mir.FunDef :=
  withDepth T do
    let name ← string
    let argNames ← readStrings T
    let argTypes ← readStrings T
    let argViews ← list T .view readView
    let argDataOnly ← list T .bool boolean
    let body ← readStmts T
    let arity := argNames.length
    failWhen (fun _ => argTypes.length ≠ arity ∨ argViews.length ≠ arity ∨
      argDataOnly.length ≠ arity) "function argument field lengths disagree"
    pure { name, argNames, argTypes, argViews, argDataOnly, body }

def readInput (T : Target) : Read (Bytes × Mir.SizedType) :=
  withDepth T do
    let name ← string
    let type ← readSized T
    pure (name, type)

/-- The sections that every document carries. -/
def readSections (T : Target) : Read Mir.Program := do
  let inputVars ← list T .input (readInput T)
  let prepareData ← readStmts T
  let logProb ← readStmts T
  let generateQuantities ← readStmts T
  let funDefs ← list T .funDef (readFun T)
  let outputVars ← readStrings T
  pure { inputVars, prepareData, logProb, generateQuantities, funDefs, outputVars }

/-- The section that an older document ends before. -/
def readTransformInits (T : Target) (result : Mir.Program) : Read Mir.Program := do
  let ended ← atEnd
  if ended then pure result
  else do
    let transformInits ← readStmts T
    pure { result with hasTransformInits := true, transformInits }

def readProgram (T : Target) : Read Mir.Program := do
  let result ← readSections T
  let result ← readTransformInits T result
  let peak ← peakDepth
  pure { result with nesting := (peak + 1) / 2 }

/-- A program and nothing behind it. -/
def readDocument (T : Target) : Read Mir.Program := do
  let result ← readProgram T
  finish
  pure result

/-- `read_portable_v2_program` up to its validation passes. -/
def decode (T : Target) (bytes : Bytes) : Except ReadError Mir.Program := do
  let payload ← decodePayload bytes
  let reader ← Reader.create payload
  let result ← readDocument T reader
  pure result.1

end Stanli.PortableMir
