import Stanli.PortableMir.Reader
import Mathlib.Algebra.BigOperators.Group.List.Basic

namespace Stanli.PortableMir

/-! ### What a wire record costs to read

The resources that the decoder bounds. Sizes and counts add up; the longest string, the longest
list and the depth are maxima. -/

@[ext]
structure Usage where
  values : ℕ := 0
  stringBytes : ℕ := 0
  listBytes : ℕ := 0
  longestString : ℕ := 0
  longestList : ℕ := 0
  depth : ℕ := 0

namespace Usage

instance : Zero Usage := ⟨{}⟩

instance : Add Usage :=
  ⟨fun u v =>
    { values := u.values + v.values
      stringBytes := u.stringBytes + v.stringBytes
      listBytes := u.listBytes + v.listBytes
      longestString := max u.longestString v.longestString
      longestList := max u.longestList v.longestList
      depth := max u.depth v.depth }⟩

@[simp] theorem zero_values : (0 : Usage).values = 0 := rfl

@[simp] theorem zero_stringBytes : (0 : Usage).stringBytes = 0 := rfl

@[simp] theorem zero_listBytes : (0 : Usage).listBytes = 0 := rfl

@[simp] theorem zero_depth : (0 : Usage).depth = 0 := rfl

@[simp] theorem add_values (u v : Usage) : (u + v).values = u.values + v.values := rfl

@[simp] theorem add_stringBytes (u v : Usage) :
    (u + v).stringBytes = u.stringBytes + v.stringBytes := rfl

@[simp] theorem add_listBytes (u v : Usage) : (u + v).listBytes = u.listBytes + v.listBytes := rfl

@[simp] theorem add_longestString (u v : Usage) :
    (u + v).longestString = max u.longestString v.longestString := rfl

@[simp] theorem add_longestList (u v : Usage) :
    (u + v).longestList = max u.longestList v.longestList := rfl

@[simp] theorem add_depth (u v : Usage) : (u + v).depth = max u.depth v.depth := rfl

instance : AddMonoid Usage where
  add_assoc u v w := by
    apply Usage.ext <;> simp only [add_values, add_stringBytes, add_listBytes, add_longestString,
      add_longestList, add_depth, Nat.add_assoc, max_assoc]
  zero_add u := by
    apply Usage.ext
    · exact Nat.zero_add _
    · exact Nat.zero_add _
    · exact Nat.zero_add _
    · exact Nat.zero_max _
    · exact Nat.zero_max _
    · exact Nat.zero_max _
  add_zero u := by
    apply Usage.ext
    · exact Nat.add_zero _
    · exact Nat.add_zero _
    · exact Nat.add_zero _
    · exact Nat.max_zero _
    · exact Nat.max_zero _
    · exact Nat.max_zero _
  nsmul := nsmulRec

/-- The usage inside one more scope. -/
def deepen (u : Usage) : Usage :=
  { u with depth := u.depth + 1 }

/-- The documented limits. -/
structure Within (T : Target) (u : Usage) : Prop where
  values : u.values ≤ kMaxValues
  stringBytes : u.stringBytes ≤ kMaxTotalStringBytes
  listBytes : u.listBytes ≤ kMaxListStorageBytes
  longestString : u.longestString ≤ kMaxStringBytes
  longestList : u.longestList ≤ kMaxListItems
  depth : u.depth ≤ 2 * T.nestingLimit

end Usage

def scalarUsage : Usage := { values := 1 }

def stringUsage (string : Bytes) : Usage :=
  { values := 1, stringBytes := string.length, longestString := string.length }

/-- The count of a list, its backing store, and its items. -/
def listUsage (T : Target) (item : Item) (items : List Usage) : Usage :=
  ({ values := 1, listBytes := items.length * T.sizeOf item, longestList := items.length } +
    items.sum).deepen

def viewUsage : Usage :=
  scalarUsage + scalarUsage

def metaUsage (expr : WireExpr) : Usage :=
  stringUsage expr.type + viewUsage + scalarUsage + scalarUsage + stringUsage expr.raw

/-- The usage of the fields that are active for an expression, with that of its arguments. -/
def exprFieldsUsage (expr : WireExpr) (args : Usage) : Usage :=
  match expr.kind with
  | .var => stringUsage expr.name
  | .litInt | .litReal => scalarUsage
  | .litStr => stringUsage expr.litS
  | .funApp => scalarUsage + stringUsage expr.name + scalarUsage + args
  | .promotion | .indexed | .ternaryIf | .eOr | .eAnd => args
  | .unsupported => 0

/-- The usage of an expression, with that of its argument list. -/
def exprUsageWith (expr : WireExpr) (args : Usage) : Usage :=
  (scalarUsage + (exprFieldsUsage expr args + metaUsage expr)).deepen

mutual

def exprUsage (T : Target) : WireExpr → Usage
  | ⟨kind, name, fnLib, fnPropto, litI, lit, litS, args, type, unsized, dataOnly, promoted, raw⟩ =>
    exprUsageWith
      ⟨kind, name, fnLib, fnPropto, litI, lit, litS, args, type, unsized, dataOnly, promoted, raw⟩
      (listUsage T .expr (exprUsages T args))

def exprUsages (T : Target) : List WireExpr → List Usage
  | [] => []
  | expr :: exprs => exprUsage T expr :: exprUsages T exprs

end

/-- The usage of a list of expressions. -/
def exprsUsage (T : Target) (exprs : List WireExpr) : Usage :=
  listUsage T .expr (exprs.map (exprUsage T))

def transformUsage (T : Target) (transform : WireTransform) : Usage :=
  (scalarUsage + exprsUsage T transform.args + stringUsage transform.raw).deepen

def optionalUsage (T : Target) : Option WireTransform → Usage
  | none => scalarUsage
  | some transform => scalarUsage + transformUsage T transform

def sizedUsage (T : Target) (sized : WireSized) : Usage :=
  (stringUsage sized.base + exprsUsage T sized.dims + stringUsage sized.elemBase +
    stringUsage sized.raw).deepen

def flaggedUsage (flag : Bool) (usage : Usage) : Usage :=
  if flag then usage else 0

/-- The usage of the fields that are active for a statement, with that of its body. -/
def stmtFieldsUsage (T : Target) (stmt : WireStmt) (body : Usage) : Usage :=
  match stmt.kind with
  | .decl =>
    stringUsage stmt.declId + sizedUsage T stmt.declType + scalarUsage + scalarUsage +
      flaggedUsage stmt.hasInit (exprUsage T stmt.init) + optionalUsage T stmt.readTransform +
      exprsUsage T stmt.readDims + stringUsage stmt.raw
  | .assignment =>
    stringUsage stmt.lhs + exprsUsage T stmt.lhsIdx + exprUsage T stmt.rhs + stringUsage stmt.raw
  | .targetPE => exprUsage T stmt.target + stringUsage stmt.raw
  | .block | .sList => body + stringUsage stmt.raw
  | .for =>
    stringUsage stmt.loopvar + exprUsage T stmt.lower + exprUsage T stmt.upper + body +
      stringUsage stmt.raw
  | .ifElse | .while => exprUsage T stmt.cond + body + stringUsage stmt.raw
  | .nrFunApp =>
    stringUsage stmt.fnName + exprsUsage T stmt.fnArgs + optionalUsage T stmt.checkTransform +
      stringUsage stmt.checkVarName + stringUsage stmt.raw
  | .return =>
    scalarUsage + flaggedUsage stmt.hasInit (exprUsage T stmt.rhs) + stringUsage stmt.raw
  | .break | .continue => 0
  | .skip | .unsupported => stringUsage stmt.raw

/-- The usage of a statement, with that of its body. -/
def stmtUsageWith (T : Target) (stmt : WireStmt) (body : Usage) : Usage :=
  (scalarUsage + stmtFieldsUsage T stmt body).deepen

mutual

def stmtUsage (T : Target) : WireStmt → Usage
  | ⟨kind, declId, declType, declDataOnly, hasInit, init, readTransform, readDims, lhs, lhsIdx, rhs,
      target, fnName, fnArgs, checkTransform, checkVarName, loopvar, lower, upper, cond, body,
      raw⟩ =>
    stmtUsageWith T
      ⟨kind, declId, declType, declDataOnly, hasInit, init, readTransform, readDims, lhs, lhsIdx,
        rhs, target, fnName, fnArgs, checkTransform, checkVarName, loopvar, lower, upper, cond,
        body, raw⟩
      (listUsage T .stmt (stmtUsages T body))

def stmtUsages (T : Target) : List WireStmt → List Usage
  | [] => []
  | stmt :: stmts => stmtUsage T stmt :: stmtUsages T stmts

end

/-- The usage of a list of statements. -/
def stmtsUsage (T : Target) (stmts : List WireStmt) : Usage :=
  listUsage T .stmt (stmts.map (stmtUsage T))

def stringsUsage (T : Target) (strings : List Bytes) : Usage :=
  listUsage T .string (strings.map stringUsage)

def funUsage (T : Target) (fn : WireFun) : Usage :=
  (stringUsage fn.name + stringsUsage T fn.argNames + stringsUsage T fn.argTypes +
    listUsage T .view (fn.argViews.map fun _ => viewUsage) +
    listUsage T .bool (fn.argDataOnly.map fun _ => scalarUsage) + stmtsUsage T fn.body).deepen

def inputUsage (T : Target) (input : Bytes × WireSized) : Usage :=
  (stringUsage input.1 + sizedUsage T input.2).deepen

def sectionsUsage (T : Target) (program : WireProgram) : Usage :=
  listUsage T .input (program.inputVars.map (inputUsage T)) + stmtsUsage T program.prepareData +
    stmtsUsage T program.logProb + stmtsUsage T program.generateQuantities +
    listUsage T .funDef (program.funDefs.map (funUsage T)) + stringsUsage T program.outputVars

def programUsage (T : Target) (program : WireProgram) : Usage :=
  sectionsUsage T program + stmtsUsage T program.transformInits

/-- The four argument lists of a function have one length. -/
structure WireFun.ArityAgrees (fn : WireFun) : Prop where
  types : fn.argTypes.length = fn.argNames.length
  views : fn.argViews.length = fn.argNames.length
  dataOnly : fn.argDataOnly.length = fn.argNames.length

/-- A program that the decoder has room for. -/
structure WireProgram.WithinLimits (T : Target) (program : WireProgram) : Prop where
  usage : (programUsage T program).Within T
  arity : ∀ fn ∈ program.funDefs, fn.ArityAgrees

/-! ### What a wire record stands for

The active fields of each kind, with the double of an integer literal, the owner of the optional
transform and the stochastic transforms derived from them. -/

def WireView.meaning (view : WireView) : Mir.UnsizedView where
  depth := UInt8.ofNat view.depth.toNat
  leaf := view.leaf

def WireExpr.litIValue (expr : WireExpr) : ℤ :=
  (int32OfString expr.litI).getD 0

/-- The fields that are active for the kind of an expression. -/
def exprFields (expr : WireExpr) (args : List Mir.Expr) : Mir.Expr :=
  match expr.kind with
  | .var => { kind := .var, name := expr.name }
  | .litInt =>
    { kind := .litInt, litI := expr.litIValue, lit := Binary64.ofInt expr.litIValue }
  | .litReal => { kind := .litReal, lit := expr.lit }
  | .litStr => { kind := .litStr, litS := expr.litS }
  | .funApp =>
    { kind := .funApp, fnLib := expr.fnLib, name := expr.name, fnPropto := expr.fnPropto, args }
  | .promotion => { kind := .promotion, args }
  | .indexed => { kind := .indexed, args }
  | .ternaryIf => { kind := .ternaryIf, args }
  | .eOr => { kind := .eOr, args }
  | .eAnd => { kind := .eAnd, args }
  | .unsupported => { kind := .unsupported }

/-- The common suffix of every expression. -/
def withMeta (expr : WireExpr) (value : Mir.Expr) : Mir.Expr :=
  { value with
    type := expr.type, unsized := expr.unsized.meaning, dataOnly := expr.dataOnly,
    promoted := expr.promoted, raw := expr.raw }

mutual

def exprMeaning : WireExpr → Mir.Expr
  | ⟨kind, name, fnLib, fnPropto, litI, lit, litS, args, type, unsized, dataOnly, promoted, raw⟩ =>
    let expr : WireExpr :=
      ⟨kind, name, fnLib, fnPropto, litI, lit, litS, args, type, unsized, dataOnly, promoted, raw⟩
    withMeta expr (exprFields expr (exprMeanings args))

def exprMeanings : List WireExpr → List Mir.Expr
  | [] => []
  | expr :: exprs => exprMeaning expr :: exprMeanings exprs

end

/-- The transform kinds that travel under the unsupported tag. -/
def transformKind (kind : Mir.TransformKind) (raw : Bytes) : Mir.TransformKind :=
  if kind = .unsupported then
    if raw = ascii "StochasticColumn" then .stochasticColumn
    else if raw = ascii "StochasticRow" then .stochasticRow
    else kind
  else kind

def transformMeaning (transform : WireTransform) : Mir.Transform where
  kind := transformKind transform.kind transform.raw
  args := transform.args.map exprMeaning
  raw := transform.raw

def sizedMeaning (sized : WireSized) : Mir.SizedType where
  base := sized.base
  dims := sized.dims.map exprMeaning
  elemBase := sized.elemBase
  raw := sized.raw

/-- A value that is there exactly when its flag is set. -/
def flaggedMeaning (flag : Bool) (expr : WireExpr) : Mir.Expr :=
  if flag then exprMeaning expr else {}

/-- The fields that are active for the kind of a statement. -/
def stmtFields (stmt : WireStmt) (body : List Mir.Stmt) : Mir.Stmt :=
  match stmt.kind with
  | .decl =>
    { kind := .decl, declId := stmt.declId, declType := sizedMeaning stmt.declType,
      declDataOnly := stmt.declDataOnly, hasInit := stmt.hasInit,
      init := flaggedMeaning stmt.hasInit stmt.init,
      readTransform := stmt.readTransform.map transformMeaning,
      readDims := stmt.readDims.map exprMeaning, raw := stmt.raw }
  | .assignment =>
    { kind := .assignment, lhs := stmt.lhs, lhsIdx := stmt.lhsIdx.map exprMeaning,
      rhs := exprMeaning stmt.rhs, raw := stmt.raw }
  | .targetPE => { kind := .targetPE, target := exprMeaning stmt.target, raw := stmt.raw }
  | .block => { kind := .block, body, raw := stmt.raw }
  | .sList => { kind := .sList, body, raw := stmt.raw }
  | .for =>
    { kind := .for, loopvar := stmt.loopvar, lower := exprMeaning stmt.lower,
      upper := exprMeaning stmt.upper, body, raw := stmt.raw }
  | .ifElse => { kind := .ifElse, cond := exprMeaning stmt.cond, body, raw := stmt.raw }
  | .while => { kind := .while, cond := exprMeaning stmt.cond, body, raw := stmt.raw }
  | .nrFunApp =>
    if stmt.fnName = ascii "FnWriteParam" then
      { kind := .nrFunApp, fnName := stmt.fnName, fnArgs := stmt.fnArgs.map exprMeaning,
        writeTransform := stmt.checkTransform.map transformMeaning,
        checkVarName := stmt.checkVarName, raw := stmt.raw }
    else
      { kind := .nrFunApp, fnName := stmt.fnName, fnArgs := stmt.fnArgs.map exprMeaning,
        checkTransform := stmt.checkTransform.map transformMeaning,
        checkVarName := stmt.checkVarName, raw := stmt.raw }
  | .return =>
    { kind := .return, hasInit := stmt.hasInit, rhs := flaggedMeaning stmt.hasInit stmt.rhs,
      raw := stmt.raw }
  | .break => { kind := .break }
  | .continue => { kind := .continue }
  | .skip => { kind := .skip, raw := stmt.raw }
  | .unsupported => { kind := .unsupported, raw := stmt.raw }

mutual

def stmtMeaning : WireStmt → Mir.Stmt
  | ⟨kind, declId, declType, declDataOnly, hasInit, init, readTransform, readDims, lhs, lhsIdx, rhs,
      target, fnName, fnArgs, checkTransform, checkVarName, loopvar, lower, upper, cond, body,
      raw⟩ =>
    stmtFields
      ⟨kind, declId, declType, declDataOnly, hasInit, init, readTransform, readDims, lhs, lhsIdx,
        rhs, target, fnName, fnArgs, checkTransform, checkVarName, loopvar, lower, upper, cond,
        body, raw⟩
      (stmtMeanings body)

def stmtMeanings : List WireStmt → List Mir.Stmt
  | [] => []
  | stmt :: stmts => stmtMeaning stmt :: stmtMeanings stmts

end

def funMeaning (fn : WireFun) : Mir.FunDef where
  name := fn.name
  argNames := fn.argNames
  argTypes := fn.argTypes
  argViews := fn.argViews.map WireView.meaning
  argDataOnly := fn.argDataOnly
  body := fn.body.map stmtMeaning

def inputMeaning (input : Bytes × WireSized) : Bytes × Mir.SizedType :=
  (input.1, sizedMeaning input.2)

/-- The program of the sections that every document carries. -/
def sectionsMeaning (program : WireProgram) : Mir.Program where
  inputVars := program.inputVars.map inputMeaning
  prepareData := program.prepareData.map stmtMeaning
  logProb := program.logProb.map stmtMeaning
  generateQuantities := program.generateQuantities.map stmtMeaning
  funDefs := program.funDefs.map funMeaning
  outputVars := program.outputVars

/-- The program of a whole document. -/
def programMeaning (T : Target) (program : WireProgram) : Mir.Program :=
  { sectionsMeaning program with
    hasTransformInits := true
    transformInits := program.transformInits.map stmtMeaning
    nesting := ((programUsage T program).depth + 1) / 2 }

/-- The program of a document that ends before the last section. -/
def olderMeaning (T : Target) (program : WireProgram) : Mir.Program :=
  { sectionsMeaning program with nesting := ((sectionsUsage T program).depth + 1) / 2 }

/-! ### Recursion -/

theorem exprUsages_eq (T : Target) (exprs : List WireExpr) :
    exprUsages T exprs = exprs.map (exprUsage T) := by
  induction exprs with
  | nil => rfl
  | cons expr exprs ih => rw [exprUsages, ih, List.map_cons]

theorem exprUsage_eq (T : Target) (expr : WireExpr) :
    exprUsage T expr = exprUsageWith expr (exprsUsage T expr.args) := by
  cases expr
  rw [exprUsage, exprUsages_eq, exprsUsage]

theorem stmtUsages_eq (T : Target) (stmts : List WireStmt) :
    stmtUsages T stmts = stmts.map (stmtUsage T) := by
  induction stmts with
  | nil => rfl
  | cons stmt stmts ih => rw [stmtUsages, ih, List.map_cons]

theorem stmtUsage_eq (T : Target) (stmt : WireStmt) :
    stmtUsage T stmt = stmtUsageWith T stmt (stmtsUsage T stmt.body) := by
  cases stmt
  rw [stmtUsage, stmtUsages_eq, stmtsUsage]

theorem exprMeanings_eq (exprs : List WireExpr) : exprMeanings exprs = exprs.map exprMeaning := by
  induction exprs with
  | nil => rfl
  | cons expr exprs ih => rw [exprMeanings, ih, List.map_cons]

theorem exprMeaning_eq (expr : WireExpr) :
    exprMeaning expr = withMeta expr (exprFields expr (expr.args.map exprMeaning)) := by
  cases expr
  rw [exprMeaning, exprMeanings_eq]

theorem stmtMeanings_eq (stmts : List WireStmt) : stmtMeanings stmts = stmts.map stmtMeaning := by
  induction stmts with
  | nil => rfl
  | cons stmt stmts ih => rw [stmtMeanings, ih, List.map_cons]

theorem stmtMeaning_eq (stmt : WireStmt) :
    stmtMeaning stmt = stmtFields stmt (stmt.body.map stmtMeaning) := by
  cases stmt
  rw [stmtMeaning, stmtMeanings_eq]

end Stanli.PortableMir
