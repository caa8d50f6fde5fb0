import Stanli.Lib.LittleEndian
import Stanli.Lib.Numeral
import Stanli.Mir.Syntax

namespace Stanli.PortableMir

/-! ### The producer of portable MIR v2

The wire records of the compiler side and the encoder over them. An emission is the bytes it
appends to the buffer or the message it fails with. -/

/-! ### Wire records -/

/-- The type `unsized_view`. -/
structure WireView where
  depth : ℤ := 0
  leaf : Mir.UnsizedLeaf := .unknown
  deriving DecidableEq

/-- The type `wire_expr`; the literal of an integer is text here. -/
structure WireExpr where
  kind : Mir.ExprKind := .unsupported
  name : Bytes := []
  fnLib : Mir.FnLib := .stanLib
  fnPropto : Bool := false
  litI : Bytes := [48]
  lit : Binary64 := {}
  litS : Bytes := []
  args : List WireExpr := []
  type : Bytes := []
  unsized : WireView := {}
  dataOnly : Bool := false
  promoted : Bool := false
  raw : Bytes := []

/-- The type `wire_transform`. -/
structure WireTransform where
  kind : Mir.TransformKind
  args : List WireExpr
  raw : Bytes

/-- The type `wire_sized`. -/
structure WireSized where
  base : Bytes := []
  dims : List WireExpr := []
  elemBase : Bytes := []
  raw : Bytes := []

/-- The type `wire_stmt`. -/
structure WireStmt where
  kind : Mir.StmtKind := .unsupported
  declId : Bytes := []
  declType : WireSized := {}
  declDataOnly : Bool := false
  hasInit : Bool := false
  init : WireExpr := {}
  readTransform : Option WireTransform := none
  readDims : List WireExpr := []
  lhs : Bytes := []
  lhsIdx : List WireExpr := []
  rhs : WireExpr := {}
  target : WireExpr := {}
  fnName : Bytes := []
  fnArgs : List WireExpr := []
  checkTransform : Option WireTransform := none
  checkVarName : Bytes := []
  loopvar : Bytes := []
  lower : WireExpr := {}
  upper : WireExpr := {}
  cond : WireExpr := {}
  body : List WireStmt := []
  raw : Bytes := []

/-- The type `wire_fun`. -/
structure WireFun where
  name : Bytes
  argNames : List Bytes
  argTypes : List Bytes
  argViews : List WireView
  argDataOnly : List Bool
  body : List WireStmt

/-- The sections that `encode` writes, each with its records in order. -/
structure WireProgram where
  inputVars : List (Bytes × WireSized) := []
  prepareData : List WireStmt := []
  logProb : List WireStmt := []
  generateQuantities : List WireStmt := []
  funDefs : List WireFun := []
  outputVars : List Bytes := []
  transformInits : List WireStmt := []

/-! ### Emissions -/

abbrev Emit := Except String Bytes

/-- One emission after another. -/
instance : Append Emit where
  append x y := do
    let a ← x
    let b ← y
    pure (a ++ b)

theorem emit_append_eq_ok {x y : Emit} {c : Bytes} :
    x ++ y = .ok c ↔ ∃ a b, x = .ok a ∧ y = .ok b ∧ c = a ++ b := by
  change (x >>= fun a => y >>= fun b => pure (a ++ b)) = _ ↔ _
  cases x with
  | error e => simp [bind, Except.bind]
  | ok a =>
    cases y with
    | error e => simp [bind, Except.bind]
    | ok b => simp [bind, Except.bind, pure, Except.pure, eq_comm]

@[simp]
theorem emit_ok_append (a b : Bytes) : (.ok a : Emit) ++ (.ok b : Emit) = .ok (a ++ b) := rfl

theorem emit_nil_append (x : Emit) : (.ok [] : Emit) ++ x = x := by
  cases x <;> rfl

theorem emit_append_assoc (x y z : Emit) : x ++ y ++ z = x ++ (y ++ z) := by
  change (x >>= fun a => y >>= fun b => pure (a ++ b)) >>= (fun a => z >>= fun b => pure (a ++ b)) =
    x >>= fun a => (y >>= fun b => z >>= fun c => pure (b ++ c)) >>= fun b => pure (a ++ b)
  simp only [bind_assoc, pure_bind, List.append_assoc]

def addU8 (value : ℤ) : Emit :=
  if value < 0 ∨ value > 255 then .error "portable MIR v2: invalid u8"
  else .ok [UInt8.ofNat value.toNat]

/-- The loop of the multibyte scalars: one byte for each shift. -/
def addShifted (value : ℕ) : List ℕ → Emit
  | [] => .ok []
  | shift :: shifts => addU8 ((value >>> (shift * 8) &&& 255 : ℕ)) ++ addShifted value shifts

def addU32 (value : ℤ) : Emit :=
  if value < 0 ∨ value > 4294967295 then .error "portable MIR v2: invalid u32"
  else addShifted value.toNat (List.range 4)

def addI32 (value : Bytes) : Emit :=
  match int32OfString value with
  | none => .error "Int32.of_string"
  | some value => addShifted (value % 2 ^ 32).toNat (List.range 4)

def addI64Bits (value : Binary64) : Emit :=
  addShifted value.bits.toNat (List.range 8)

def continuation (byte : UInt8) : Bool :=
  byte &&& 192 = 128

/-- Whether `validate_utf8` lets a string pass. -/
def validateUtf8 : Bytes → Bool
  | [] => true
  | byte :: rest =>
    if byte < 128 then validateUtf8 rest
    else if byte ≥ 194 ∧ byte ≤ 223 then
      match rest with
      | second :: rest => continuation second && validateUtf8 rest
      | [] => false
    else if byte ≥ 224 ∧ byte ≤ 239 then
      match rest with
      | second :: third :: rest =>
        continuation third &&
          (if byte = 224 then second ≥ 160 ∧ second ≤ 191
          else if byte = 237 then second ≥ 128 ∧ second ≤ 159
          else continuation second) && validateUtf8 rest
      | _ => false
    else if byte ≥ 240 ∧ byte ≤ 244 then
      match rest with
      | second :: third :: fourth :: rest =>
        (continuation third && continuation fourth) &&
          (if byte = 240 then second ≥ 144 ∧ second ≤ 191
          else if byte = 244 then second ≥ 128 ∧ second ≤ 143
          else continuation second) && validateUtf8 rest
      | _ => false
    else false

def addV2String (string : Bytes) : Emit :=
  if validateUtf8 string then addU32 string.length ++ .ok string
  else .error "portable MIR v2: invalid UTF-8"

def addV2Bool (value : Bool) : Emit :=
  addU8 (if value then 1 else 0)

/-- The items of a list, without their count. -/
def addItems {α : Type*} (addItem : α → Emit) : List α → Emit
  | [] => .ok []
  | item :: items => addItem item ++ addItems addItem items

def addV2List {α : Type*} (addItem : α → Emit) (items : List α) : Emit :=
  addU32 items.length ++ addItems addItem items

def v2LeafTag : Mir.UnsizedLeaf → ℤ
  | .unknown => 0
  | .int => 1
  | .real => 2
  | .complex => 3
  | .vector => 4
  | .rowVector => 5
  | .matrix => 6

def addV2View (view : WireView) : Emit :=
  addU8 view.depth ++ addU8 (v2LeafTag view.leaf)

def addV2Meta (expr : WireExpr) : Emit :=
  addV2String expr.type ++ addV2View expr.unsized ++ addV2Bool expr.dataOnly ++
    addV2Bool expr.promoted ++ addV2String expr.raw

def v2LibTag : Mir.FnLib → ℤ
  | .stanLib => 0
  | .internal => 1
  | .userDefined => 2

/-- The body of `add_v2_expr`, with what it emits for the argument list. -/
def addV2ExprWith (expr : WireExpr) (args : Emit) : Emit :=
  (match expr.kind with
    | .var => addU8 0 ++ addV2String expr.name
    | .litInt => addU8 1 ++ addI32 expr.litI
    | .litReal => addU8 2 ++ addI64Bits expr.lit
    | .litStr => addU8 3 ++ addV2String expr.litS
    | .funApp =>
      addU8 4 ++ addU8 (v2LibTag expr.fnLib) ++ addV2String expr.name ++ addV2Bool expr.fnPropto ++
        args
    | .promotion => addU8 5 ++ args
    | .indexed => addU8 6 ++ args
    | .ternaryIf => addU8 7 ++ args
    | .eOr => addU8 8 ++ args
    | .eAnd => addU8 9 ++ args
    | .unsupported => addU8 10) ++
    addV2Meta expr

mutual

def addV2Expr : WireExpr → Emit
  | ⟨kind, name, fnLib, fnPropto, litI, lit, litS, args, type, unsized, dataOnly, promoted, raw⟩ =>
    addV2ExprWith
      ⟨kind, name, fnLib, fnPropto, litI, lit, litS, args, type, unsized, dataOnly, promoted, raw⟩
      (addU32 args.length ++ addV2ExprItems args)

/-- The arguments of an expression, without their count. -/
def addV2ExprItems : List WireExpr → Emit
  | [] => .ok []
  | item :: items => addV2Expr item ++ addV2ExprItems items

end

/-- Kinds without a wire tag are refused. -/
def v2TransformTag : Mir.TransformKind → Except String ℤ
  | .identity => .ok 0
  | .lower => .ok 1
  | .upper => .ok 2
  | .lowerUpper => .ok 3
  | .offset => .ok 4
  | .multiplier => .ok 5
  | .offsetMultiplier => .ok 6
  | .simplex => .ok 7
  | .ordered => .ok 8
  | .positiveOrdered => .ok 9
  | .choleskyCorr => .ok 10
  | .unitVector => .ok 11
  | .sumToZero => .ok 12
  | .correlation => .ok 13
  | .covariance => .ok 14
  | .choleskyCov => .ok 15
  | .unsupported => .ok 16
  | .stochasticColumn => .error "portable MIR v2: unknown transform kind StochasticColumn"
  | .stochasticRow => .error "portable MIR v2: unknown transform kind StochasticRow"

def addV2Transform (transform : WireTransform) : Emit :=
  (v2TransformTag transform.kind >>= addU8) ++ addV2List addV2Expr transform.args ++
    addV2String transform.raw

def addV2Optional {α : Type*} (addValue : α → Emit) : Option α → Emit
  | none => addU8 0
  | some value => addU8 1 ++ addValue value

def addV2Sized (sized : WireSized) : Emit :=
  addV2String sized.base ++ addV2List addV2Expr sized.dims ++ addV2String sized.elemBase ++
    addV2String sized.raw

/-- A value that is there exactly when its flag is set. -/
def addFlagged (flag : Bool) (value : Emit) : Emit :=
  if flag then value else .ok []

/-- The body of `add_v2_stmt`, with what it emits for the statement list. -/
def addV2StmtWith (stmt : WireStmt) (body : Emit) : Emit :=
  match stmt.kind with
  | .decl =>
    addU8 0 ++ addV2String stmt.declId ++ addV2Sized stmt.declType ++
      addV2Bool stmt.declDataOnly ++ addV2Bool stmt.hasInit ++
      addFlagged stmt.hasInit (addV2Expr stmt.init) ++
      addV2Optional addV2Transform stmt.readTransform ++ addV2List addV2Expr stmt.readDims ++
      addV2String stmt.raw
  | .assignment =>
    addU8 1 ++ addV2String stmt.lhs ++ addV2List addV2Expr stmt.lhsIdx ++ addV2Expr stmt.rhs ++
      addV2String stmt.raw
  | .targetPE => addU8 2 ++ addV2Expr stmt.target ++ addV2String stmt.raw
  | .block => addU8 3 ++ body ++ addV2String stmt.raw
  | .sList => addU8 4 ++ body ++ addV2String stmt.raw
  | .for =>
    addU8 5 ++ addV2String stmt.loopvar ++ addV2Expr stmt.lower ++ addV2Expr stmt.upper ++ body ++
      addV2String stmt.raw
  | .ifElse => addU8 6 ++ addV2Expr stmt.cond ++ body ++ addV2String stmt.raw
  | .while => addU8 7 ++ addV2Expr stmt.cond ++ body ++ addV2String stmt.raw
  | .nrFunApp =>
    addU8 8 ++ addV2String stmt.fnName ++ addV2List addV2Expr stmt.fnArgs ++
      addV2Optional addV2Transform stmt.checkTransform ++ addV2String stmt.checkVarName ++
      addV2String stmt.raw
  | .return =>
    addU8 9 ++ addV2Bool stmt.hasInit ++ addFlagged stmt.hasInit (addV2Expr stmt.rhs) ++
      addV2String stmt.raw
  | .break => addU8 10
  | .continue => addU8 11
  | .skip => addU8 12 ++ addV2String stmt.raw
  | .unsupported => addU8 13 ++ addV2String stmt.raw

mutual

def addV2Stmt : WireStmt → Emit
  | ⟨kind, declId, declType, declDataOnly, hasInit, init, readTransform, readDims, lhs, lhsIdx, rhs,
      target, fnName, fnArgs, checkTransform, checkVarName, loopvar, lower, upper, cond, body,
      raw⟩ =>
    addV2StmtWith
      ⟨kind, declId, declType, declDataOnly, hasInit, init, readTransform, readDims, lhs, lhsIdx,
        rhs, target, fnName, fnArgs, checkTransform, checkVarName, loopvar, lower, upper, cond,
        body, raw⟩
      (addU32 body.length ++ addV2StmtItems body)

/-- The statements of a body, without their count. -/
def addV2StmtItems : List WireStmt → Emit
  | [] => .ok []
  | item :: items => addV2Stmt item ++ addV2StmtItems items

end

def addV2Fun (fn : WireFun) : Emit :=
  addV2String fn.name ++ addV2List addV2String fn.argNames ++ addV2List addV2String fn.argTypes ++
    addV2List addV2View fn.argViews ++ addV2List addV2Bool fn.argDataOnly ++
    addV2List addV2Stmt fn.body

def addV2Input (input : Bytes × WireSized) : Emit :=
  addV2String input.1 ++ addV2Sized input.2

/-- The sections that every document carries. -/
def addSections (program : WireProgram) : Emit :=
  addV2List addV2Input program.inputVars ++ addV2List addV2Stmt program.prepareData ++
    addV2List addV2Stmt program.logProb ++ addV2List addV2Stmt program.generateQuantities ++
    addV2List addV2Fun program.funDefs ++ addV2List addV2String program.outputVars

/-- The payload that `encode` puts in the envelope. -/
def addProgram (program : WireProgram) : Emit :=
  addSections program ++ addV2List addV2Stmt program.transformInits

/-! ### Recursion over the wire records -/

theorem addV2ExprItems_eq (items : List WireExpr) : addV2ExprItems items = addItems addV2Expr items := by
  induction items with
  | nil => rfl
  | cons item items ih => rw [addV2ExprItems, addItems, ih]

theorem addV2Expr_eq (expr : WireExpr) :
    addV2Expr expr = addV2ExprWith expr (addV2List addV2Expr expr.args) := by
  cases expr
  rw [addV2Expr, addV2ExprItems_eq, addV2List]

theorem addV2StmtItems_eq (items : List WireStmt) : addV2StmtItems items = addItems addV2Stmt items := by
  induction items with
  | nil => rfl
  | cons item items ih => rw [addV2StmtItems, addItems, ih]

theorem addV2Stmt_eq (stmt : WireStmt) :
    addV2Stmt stmt = addV2StmtWith stmt (addV2List addV2Stmt stmt.body) := by
  cases stmt
  rw [addV2Stmt, addV2StmtItems_eq, addV2List]

theorem WireExpr.induction {p : WireExpr → Prop} (step : ∀ e : WireExpr, (∀ a ∈ e.args, p a) → p e)
    (e : WireExpr) : p e := by
  refine @WireExpr.rec p (fun es => ∀ a ∈ es, p a) ?_ ?_ ?_ e
  · intro kind name fnLib fnPropto litI lit litS args type unsized dataOnly promoted raw h
    exact step _ h
  · intro a h
    cases h
  · intro a as ha has b hb
    rcases List.mem_cons.1 hb with rfl | hb
    · exact ha
    · exact has b hb

theorem WireStmt.induction {p : WireStmt → Prop} (step : ∀ s : WireStmt, (∀ a ∈ s.body, p a) → p s)
    (s : WireStmt) : p s := by
  refine @WireStmt.rec p (fun ss => ∀ a ∈ ss, p a) ?_ ?_ ?_ s
  · intro kind declId declType declDataOnly hasInit init readTransform readDims lhs lhsIdx rhs target
      fnName fnArgs checkTransform checkVarName loopvar lower upper cond body raw h
    exact step _ h
  · intro a h
    cases h
  · intro a as ha has b hb
    rcases List.mem_cons.1 hb with rfl | hb
    · exact ha
    · exact has b hb

end Stanli.PortableMir
