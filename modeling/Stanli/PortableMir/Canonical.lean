import Stanli.PortableMir.Stmts

namespace Stanli.PortableMir

/-! ### The wire record of a runtime value

The encoder reads only what a record means: encoding the record that is written back from the
meaning gives the same bytes. -/

/-- What encodes, encodes to the same bytes once it is written back from its meaning. -/
def Canonical {W V : Type} (emit : W → Emit) (meaning : W → V) (wire : V → W) : Prop :=
  ∀ w b, emit w = .ok b → emit (wire (meaning w)) = .ok b

def viewWire (view : Mir.UnsizedView) : WireView where
  depth := view.depth.toNat
  leaf := view.leaf

mutual

def exprWire : Mir.Expr → WireExpr
  | ⟨kind, name, fnLib, fnPropto, litI, lit, litS, args, type, unsized, dataOnly, promoted, raw⟩ =>
    ⟨kind, name, fnLib, fnPropto, decimal litI, lit, litS, exprWires args, type, viewWire unsized,
      dataOnly, promoted, raw⟩

def exprWires : List Mir.Expr → List WireExpr
  | [] => []
  | expr :: exprs => exprWire expr :: exprWires exprs

end

def transformKindWire : Mir.TransformKind → Mir.TransformKind
  | .stochasticColumn | .stochasticRow => .unsupported
  | kind => kind

def transformWire (transform : Mir.Transform) : WireTransform where
  kind := transformKindWire transform.kind
  args := transform.args.map exprWire
  raw := transform.raw

def sizedWire (sized : Mir.SizedType) : WireSized where
  base := sized.base
  dims := sized.dims.map exprWire
  elemBase := sized.elemBase
  raw := sized.raw

mutual

def stmtWire : Mir.Stmt → WireStmt
  | ⟨kind, declId, declType, declDataOnly, hasInit, init, readTransform, readDims, lhs, lhsIdx, rhs,
      target, fnName, fnArgs, checkTransform, checkVarName, writeTransform, loopvar, lower, upper,
      cond, body, raw⟩ =>
    { kind, declId, declType := sizedWire declType, declDataOnly, hasInit, init := exprWire init,
      readTransform := readTransform.map transformWire, readDims := readDims.map exprWire, lhs,
      lhsIdx := lhsIdx.map exprWire, rhs := exprWire rhs, target := exprWire target, fnName,
      fnArgs := fnArgs.map exprWire,
      checkTransform :=
        (if fnName = ascii "FnWriteParam" then writeTransform else checkTransform).map transformWire,
      checkVarName, loopvar, lower := exprWire lower, upper := exprWire upper, cond := exprWire cond,
      body := stmtWires body, raw }

def stmtWires : List Mir.Stmt → List WireStmt
  | [] => []
  | stmt :: stmts => stmtWire stmt :: stmtWires stmts

end

def funWire (fn : Mir.FunDef) : WireFun where
  name := fn.name
  argNames := fn.argNames
  argTypes := fn.argTypes
  argViews := fn.argViews.map viewWire
  argDataOnly := fn.argDataOnly
  body := fn.body.map stmtWire

def inputWire (input : Bytes × Mir.SizedType) : Bytes × WireSized :=
  (input.1, sizedWire input.2)

/-- The wire records of a program. -/
def programWire (program : Mir.Program) : WireProgram where
  inputVars := program.inputVars.map inputWire
  prepareData := program.prepareData.map stmtWire
  logProb := program.logProb.map stmtWire
  generateQuantities := program.generateQuantities.map stmtWire
  funDefs := program.funDefs.map funWire
  outputVars := program.outputVars
  transformInits := program.transformInits.map stmtWire

/-! ### Lists -/

theorem exprWires_eq (exprs : List Mir.Expr) : exprWires exprs = exprs.map exprWire := by
  induction exprs with
  | nil => rfl
  | cons expr exprs ih => rw [exprWires, ih, List.map_cons]

theorem stmtWires_eq (stmts : List Mir.Stmt) : stmtWires stmts = stmts.map stmtWire := by
  induction stmts with
  | nil => rfl
  | cons stmt stmts ih => rw [stmtWires, ih, List.map_cons]

theorem addItems_map {W : Type} {emit : W → Emit} {f : W → W} {ws : List W} {b : Bytes}
    (hf : ∀ w ∈ ws, ∀ b, emit w = .ok b → emit (f w) = .ok b) (h : addItems emit ws = .ok b) :
    addItems emit (ws.map f) = .ok b := by
  induction ws generalizing b with
  | nil => exact h
  | cons w ws ih =>
    obtain ⟨b1, b2, h1, h2, rfl⟩ := emit_append_eq_ok.1 h
    rw [List.map_cons, addItems, hf w List.mem_cons_self b1 h1,
      ih (fun x hx => hf x (List.mem_cons_of_mem w hx)) h2]
    rfl

theorem addV2List_map {W : Type} {emit : W → Emit} {f : W → W} {ws : List W} {b : Bytes}
    (hf : ∀ w ∈ ws, ∀ b, emit w = .ok b → emit (f w) = .ok b) (h : addV2List emit ws = .ok b) :
    addV2List emit (ws.map f) = .ok b := by
  obtain ⟨b1, b2, h1, h2, rfl⟩ := addV2List_eq_ok.1 h
  exact addV2List_eq_ok.2 ⟨b1, b2, by rw [List.length_map]; exact h1, addItems_map hf h2, rfl⟩

theorem Canonical.list {W V : Type} {emit : W → Emit} {meaning : W → V} {wire : V → W}
    (h : Canonical emit meaning wire) :
    Canonical (addV2List emit) (List.map meaning) (List.map wire) := by
  intro ws b hb
  rw [List.map_map]
  exact addV2List_map (fun w _ => h w) hb

/-! ### Expressions -/

theorem view_canonical : Canonical addV2View WireView.meaning viewWire := by
  intro view b h
  obtain ⟨h0, h1, rfl⟩ := addV2View_eq_ok.1 h
  have hnat : (UInt8.ofNat view.depth.toNat).toNat = view.depth.toNat := by
    rw [UInt8.toNat_ofNat', Nat.mod_eq_of_lt]
    omega
  have hdepth : (viewWire view.meaning).depth = view.depth := by
    rw [viewWire, WireView.meaning, hnat, Int.toNat_of_nonneg h0]
  rw [addV2View_eq_ok, hdepth]
  exact ⟨h0, h1, rfl⟩

theorem addI32_decimal {text b : Bytes} (h : addI32 text = .ok b) :
    addI32 (decimal ((int32OfString text).getD 0)) = .ok b := by
  obtain ⟨i, hi, rfl⟩ := addI32_eq_ok.1 h
  obtain ⟨hlo, hhi⟩ := int32OfString_range hi
  rw [hi]
  exact addI32_eq_ok.2 ⟨i, int32OfString_decimal hlo hhi, rfl⟩

/-- The record that an expression is written back to, field by field. -/
theorem exprWire_meaning (expr : WireExpr) :
    exprWire (exprMeaning expr) =
      let fields := exprFields expr (expr.args.map exprMeaning)
      { kind := fields.kind, name := fields.name, fnLib := fields.fnLib,
        fnPropto := fields.fnPropto, litI := decimal fields.litI, lit := fields.lit,
        litS := fields.litS, args := fields.args.map exprWire, type := expr.type,
        unsized := viewWire expr.unsized.meaning, dataOnly := expr.dataOnly,
        promoted := expr.promoted, raw := expr.raw } := by
  rw [exprMeaning_eq]
  simp only [withMeta, exprWire, exprWires_eq]

theorem exprFields_kind (expr : WireExpr) (args : List Mir.Expr) :
    (exprFields expr args).kind = expr.kind := by
  rw [exprFields]
  cases expr.kind <;> rfl

theorem expr_canonical : Canonical addV2Expr exprMeaning exprWire := by
  intro expr
  induction expr using WireExpr.induction with
  | step expr ih =>
    intro b h
    obtain ⟨b1, b2, h1, h2, rfl⟩ := addV2Expr_eq_ok.1 h
    have hargs : ∀ a, addV2List addV2Expr expr.args = .ok a →
        addV2List addV2Expr ((expr.args.map exprMeaning).map exprWire) = .ok a := by
      intro a ha
      rw [List.map_map]
      exact addV2List_map ih ha
    rw [exprWire_meaning, addV2Expr_eq_ok]
    refine ⟨b1, b2, ?_, ?_, ?_⟩
    · rw [addExprFields] at h1 ⊢
      cases hk : expr.kind <;> simp only [exprFields, hk] at h1 ⊢
      case litInt => exact addI32_decimal h1
      case funApp =>
        obtain ⟨c1, c2, hc1, hc2, rfl⟩ := emit_append_eq_ok.1 h1
        exact emit_append_eq_ok.2 ⟨c1, c2, hc1, hargs _ hc2, rfl⟩
      all_goals first | exact h1 | exact hargs _ h1
    · simp only [addV2Meta, emit_append_assoc, emit_append_eq_ok] at h2 ⊢
      obtain ⟨c1, c2, hc1, ⟨c3, c4, hc3, hc4, rfl⟩, rfl⟩ := h2
      exact ⟨c1, _, hc1, ⟨c3, c4, view_canonical _ _ hc3, hc4, rfl⟩, rfl⟩
    · simp only [exprFields_kind]

/-! ### Types -/

theorem transformKindWire_of_ok {kind : Mir.TransformKind} {raw b : Bytes}
    (h : (v2TransformTag kind >>= addU8) = .ok b) :
    transformKindWire (transformKind kind raw) = kind := by
  cases kind
  case unsupported =>
    simp only [transformKind, if_true]
    split
    · rfl
    · split <;> rfl
  case stochasticColumn => cases h
  case stochasticRow => cases h
  all_goals rfl

theorem transform_canonical : Canonical addV2Transform transformMeaning transformWire := by
  intro transform b h
  simp only [addV2Transform, emit_append_assoc, emit_append_eq_ok] at h
  obtain ⟨b1, _, h1, ⟨b2, b3, h2, h3, rfl⟩, rfl⟩ := h
  have hkind : (transformWire (transformMeaning transform)).kind = transform.kind :=
    transformKindWire_of_ok h1
  simp only [addV2Transform, emit_append_assoc, emit_append_eq_ok, hkind]
  exact ⟨b1, _, h1, ⟨b2, b3, expr_canonical.list _ _ h2, h3, rfl⟩, rfl⟩

theorem optional_canonical : Canonical (addV2Optional addV2Transform)
    (Option.map transformMeaning) (Option.map transformWire) := by
  intro transform b h
  cases transform with
  | none => exact h
  | some transform =>
    obtain ⟨b1, b2, h1, h2, rfl⟩ := emit_append_eq_ok.1 h
    exact emit_append_eq_ok.2 ⟨b1, b2, h1, transform_canonical _ _ h2, rfl⟩

theorem sized_canonical : Canonical addV2Sized sizedMeaning sizedWire := by
  intro sized b h
  simp only [addV2Sized, emit_append_assoc, emit_append_eq_ok] at h ⊢
  obtain ⟨b1, _, h1, ⟨b2, b3, h2, h3, rfl⟩, rfl⟩ := h
  exact ⟨b1, _, h1, ⟨b2, b3, expr_canonical.list _ _ h2, h3, rfl⟩, rfl⟩

theorem flagged_canonical {flag : Bool} {expr : WireExpr} {b : Bytes}
    (h : addFlagged flag (addV2Expr expr) = .ok b) :
    addFlagged flag (addV2Expr (exprWire (flaggedMeaning flag expr))) = .ok b := by
  cases flag with
  | false => exact h
  | true => exact expr_canonical _ _ h

/-! ### Statements -/

/-- The record that a statement is written back to, field by field. -/
theorem stmtWire_eq (stmt : Mir.Stmt) :
    stmtWire stmt =
      { kind := stmt.kind, declId := stmt.declId, declType := sizedWire stmt.declType,
        declDataOnly := stmt.declDataOnly, hasInit := stmt.hasInit, init := exprWire stmt.init,
        readTransform := stmt.readTransform.map transformWire,
        readDims := stmt.readDims.map exprWire, lhs := stmt.lhs,
        lhsIdx := stmt.lhsIdx.map exprWire, rhs := exprWire stmt.rhs,
        target := exprWire stmt.target, fnName := stmt.fnName, fnArgs := stmt.fnArgs.map exprWire,
        checkTransform :=
          (if stmt.fnName = ascii "FnWriteParam" then stmt.writeTransform
            else stmt.checkTransform).map transformWire,
        checkVarName := stmt.checkVarName, loopvar := stmt.loopvar, lower := exprWire stmt.lower,
        upper := exprWire stmt.upper, cond := exprWire stmt.cond, body := stmt.body.map stmtWire,
        raw := stmt.raw } := by
  cases stmt
  simp only [stmtWire, stmtWires_eq]

theorem stmtFields_kind (stmt : WireStmt) (body : List Mir.Stmt) :
    (stmtFields stmt body).kind = stmt.kind := by
  rw [stmtFields]
  cases stmt.kind
  case nrFunApp => simp only; split <;> rfl
  all_goals rfl

theorem stmt_canonical : Canonical addV2Stmt stmtMeaning stmtWire := by
  intro stmt
  induction stmt using WireStmt.induction with
  | step stmt ih =>
    intro b h
    obtain ⟨b1, h1, rfl⟩ := addV2Stmt_eq_ok.1 h
    have hbody : ∀ a, addV2List addV2Stmt stmt.body = .ok a →
        addV2List addV2Stmt ((stmt.body.map stmtMeaning).map stmtWire) = .ok a := by
      intro a ha
      rw [List.map_map]
      exact addV2List_map ih ha
    have hexprs : ∀ (es : List WireExpr) (a : Bytes), addV2List addV2Expr es = .ok a →
        addV2List addV2Expr ((es.map exprMeaning).map exprWire) = .ok a := expr_canonical.list
    rw [stmtMeaning_eq, stmtWire_eq, addV2Stmt_eq_ok]
    refine ⟨b1, ?_, by rw [stmtFields_kind]⟩
    rw [addStmtFields] at h1 ⊢
    cases hk : stmt.kind
    case nrFunApp =>
      have hwire : (stmtFields stmt (stmt.body.map stmtMeaning)).fnName = stmt.fnName ∧
          (if (stmtFields stmt (stmt.body.map stmtMeaning)).fnName = ascii "FnWriteParam"
            then (stmtFields stmt (stmt.body.map stmtMeaning)).writeTransform
            else (stmtFields stmt (stmt.body.map stmtMeaning)).checkTransform) =
              stmt.checkTransform.map transformMeaning ∧
          (stmtFields stmt (stmt.body.map stmtMeaning)).fnArgs = stmt.fnArgs.map exprMeaning ∧
          (stmtFields stmt (stmt.body.map stmtMeaning)).checkVarName = stmt.checkVarName ∧
          (stmtFields stmt (stmt.body.map stmtMeaning)).raw = stmt.raw ∧
          (stmtFields stmt (stmt.body.map stmtMeaning)).kind = .nrFunApp := by
        simp only [stmtFields, hk]
        split
        · rename_i hname
          simp only [hname, and_self]
        · rename_i hname
          simp only [and_self]
      obtain ⟨hname, htransform, hargs, hvar, hraw, hkind⟩ := hwire
      simp only [hk, hkind, htransform, hargs, hvar, hraw, emit_append_assoc,
        emit_append_eq_ok] at h1 ⊢
      rw [hname]
      obtain ⟨c1, _, hc1, ⟨c2, _, hc2, ⟨c3, c4, hc3, hc4, rfl⟩, rfl⟩, rfl⟩ := h1
      exact ⟨c1, _, hc1, ⟨c2, _, hexprs _ _ hc2, ⟨c3, c4, optional_canonical _ _ hc3, hc4, rfl⟩,
        rfl⟩, rfl⟩
    all_goals simp only [stmtFields, hk, emit_append_assoc, emit_append_eq_ok] at h1 ⊢
    case decl =>
      obtain ⟨c1, _, hc1, ⟨c2, _, hc2, ⟨c3, _, hc3, ⟨c4, _, hc4, ⟨c5, _, hc5, ⟨c6, _, hc6, ⟨c7, c8,
        hc7, hc8, rfl⟩, rfl⟩, rfl⟩, rfl⟩, rfl⟩, rfl⟩, rfl⟩ := h1
      exact ⟨c1, _, hc1, ⟨c2, _, sized_canonical _ _ hc2, ⟨c3, _, hc3, ⟨c4, _, hc4, ⟨c5, _,
        flagged_canonical hc5, ⟨c6, _, optional_canonical _ _ hc6, ⟨c7, c8, hexprs _ _ hc7, hc8,
        rfl⟩, rfl⟩, rfl⟩, rfl⟩, rfl⟩, rfl⟩, rfl⟩
    case assignment =>
      obtain ⟨c1, _, hc1, ⟨c2, _, hc2, ⟨c3, c4, hc3, hc4, rfl⟩, rfl⟩, rfl⟩ := h1
      exact ⟨c1, _, hc1, ⟨c2, _, hexprs _ _ hc2, ⟨c3, c4, expr_canonical _ _ hc3, hc4, rfl⟩, rfl⟩,
        rfl⟩
    case targetPE =>
      obtain ⟨c1, c2, hc1, hc2, rfl⟩ := h1
      exact ⟨c1, c2, expr_canonical _ _ hc1, hc2, rfl⟩
    case block | sList =>
      obtain ⟨c1, c2, hc1, hc2, rfl⟩ := h1
      exact ⟨c1, c2, hbody _ hc1, hc2, rfl⟩
    case «for» =>
      obtain ⟨c1, _, hc1, ⟨c2, _, hc2, ⟨c3, _, hc3, ⟨c4, c5, hc4, hc5, rfl⟩, rfl⟩, rfl⟩, rfl⟩ := h1
      exact ⟨c1, _, hc1, ⟨c2, _, expr_canonical _ _ hc2, ⟨c3, _, expr_canonical _ _ hc3, ⟨c4, c5,
        hbody _ hc4, hc5, rfl⟩, rfl⟩, rfl⟩, rfl⟩
    case ifElse | «while» =>
      obtain ⟨c1, _, hc1, ⟨c2, c3, hc2, hc3, rfl⟩, rfl⟩ := h1
      exact ⟨c1, _, expr_canonical _ _ hc1, ⟨c2, c3, hbody _ hc2, hc3, rfl⟩, rfl⟩
    case «return» =>
      obtain ⟨c1, _, hc1, ⟨c2, c3, hc2, hc3, rfl⟩, rfl⟩ := h1
      exact ⟨c1, _, hc1, ⟨c2, c3, flagged_canonical hc2, hc3, rfl⟩, rfl⟩
    case «break» | «continue» | skip | unsupported => exact h1

/-! ### Programs -/

theorem fun_canonical : Canonical addV2Fun funMeaning funWire := by
  intro fn b h
  simp only [addV2Fun, emit_append_assoc, emit_append_eq_ok] at h ⊢
  obtain ⟨b1, _, h1, ⟨b2, _, h2, ⟨b3, _, h3, ⟨b4, _, h4, ⟨b5, b6, h5, h6, rfl⟩, rfl⟩, rfl⟩, rfl⟩,
    rfl⟩ := h
  exact ⟨b1, _, h1, ⟨b2, _, h2, ⟨b3, _, h3, ⟨b4, _, view_canonical.list _ _ h4, ⟨b5, b6, h5,
    stmt_canonical.list _ _ h6, rfl⟩, rfl⟩, rfl⟩, rfl⟩, rfl⟩

theorem input_canonical : Canonical addV2Input inputMeaning inputWire := by
  intro input b h
  obtain ⟨b1, b2, h1, h2, rfl⟩ := emit_append_eq_ok.1 h
  exact emit_append_eq_ok.2 ⟨b1, b2, h1, sized_canonical _ _ h2, rfl⟩

theorem sections_canonical {program : WireProgram} {p : Mir.Program} {b : Bytes}
    (hp : p.inputVars = program.inputVars.map inputMeaning ∧
      p.prepareData = program.prepareData.map stmtMeaning ∧
      p.logProb = program.logProb.map stmtMeaning ∧
      p.generateQuantities = program.generateQuantities.map stmtMeaning ∧
      p.funDefs = program.funDefs.map funMeaning ∧ p.outputVars = program.outputVars)
    (h : addSections program = .ok b) : addSections (programWire p) = .ok b := by
  obtain ⟨hp1, hp2, hp3, hp4, hp5, hp6⟩ := hp
  simp only [addSections, programWire, hp1, hp2, hp3, hp4, hp5, hp6, emit_append_assoc,
    emit_append_eq_ok] at h ⊢
  obtain ⟨b1, _, h1, ⟨b2, _, h2, ⟨b3, _, h3, ⟨b4, _, h4, ⟨b5, b6, h5, h6, rfl⟩, rfl⟩, rfl⟩, rfl⟩,
    rfl⟩ := h
  exact ⟨b1, _, input_canonical.list _ _ h1, ⟨b2, _, stmt_canonical.list _ _ h2, ⟨b3, _,
    stmt_canonical.list _ _ h3, ⟨b4, _, stmt_canonical.list _ _ h4, ⟨b5, b6,
    fun_canonical.list _ _ h5, h6, rfl⟩, rfl⟩, rfl⟩, rfl⟩, rfl⟩

end Stanli.PortableMir
