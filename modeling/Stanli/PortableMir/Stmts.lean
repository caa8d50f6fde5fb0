import Stanli.PortableMir.Exprs

namespace Stanli.PortableMir

/-! ### Statements -/

section

variable {T : Target} {fuel : ℕ}

/-! ### Transforms -/

/-- The tag of a transform kind; the stochastic kinds have none. -/
def transformTag : Mir.TransformKind → UInt8
  | .identity => 0
  | .lower => 1
  | .upper => 2
  | .lowerUpper => 3
  | .offset => 4
  | .multiplier => 5
  | .offsetMultiplier => 6
  | .simplex => 7
  | .ordered => 8
  | .positiveOrdered => 9
  | .choleskyCorr => 10
  | .unitVector => 11
  | .sumToZero => 12
  | .correlation => 13
  | .covariance => 14
  | .choleskyCov => 15
  | .unsupported => 16
  | .stochasticColumn | .stochasticRow => 255

theorem transformTag_of_ok {kind : Mir.TransformKind} {b : Bytes}
    (h : (v2TransformTag kind >>= addU8) = .ok b) :
    b = [transformTag kind] ∧ kTransformTags[(transformTag kind).toNat]? = some kind := by
  cases kind <;> cases h <;> exact ⟨rfl, rfl⟩

theorem transformTag_of_get {tag : UInt8} {kind : Mir.TransformKind}
    (h : kTransformTags[tag.toNat]? = some kind) :
    (v2TransformTag kind >>= addU8) = .ok [tag] := by
  have hmem := List.mem_of_getElem? h
  have hok : (v2TransformTag kind >>= addU8) = .ok [transformTag kind] := by
    cases kind <;> first | rfl | exact absurd hmem (by decide)
  rw [tag_unique (by decide) h (transformTag_of_ok hok).2]
  exact hok

theorem transform_delivers {transform : WireTransform} {b : Bytes}
    (h : addV2Transform transform = .ok b) :
    Delivers (Fueled T fuel) (readTransform T) ⟨b, transformUsage T transform⟩
      (transformMeaning transform) := by
  simp only [addV2Transform, emit_append_assoc, emit_append_eq_ok] at h
  obtain ⟨_, _, h1, ⟨_, _, h2, h3, rfl⟩, rfl⟩ := h
  obtain ⟨rfl, htag⟩ := transformTag_of_ok h1
  refine withDepth_delivers_of_all (p := ⟨_, _⟩) ?_
  simp only [add_assoc, List.cons_append, List.nil_append]
  refine read_tag htag (read_bind (exprs_delivers h2) ?_)
  exact read_map _ (string_delivers h3)

theorem transform_gathers : Gathers (Consumes T) (readTransform T)
    (Spells addV2Transform transformMeaning (transformUsage T)) := by
  have hJ := consumes_joining T
  refine withDepth_gathers (tag_gathers fun tag kind htag => hJ.bind exprs_gathers ?_)
  rintro _ p2 ⟨args, rfl, h2, u2⟩
  refine hJ.bind string_gathers ?_
  rintro raw p3 ⟨h3, u3⟩
  refine hJ.pure ⟨⟨kind, args, raw⟩, rfl, ?_, ?_⟩
  · simp [addV2Transform, transformTag_of_get htag, h2, h3, Portion.deepen]
  · simp [transformUsage, Portion.deepen, u2, u3, add_assoc]

theorem addV2Optional_some (transform : WireTransform) :
    addV2Optional addV2Transform (some transform) = .ok [1] ++ addV2Transform transform := rfl

theorem readOptionalTransform_eq_ok {v : Option Mir.Transform} {s s' : Reader} :
    readOptionalTransform T s = .ok (v, s') ↔
      (u8 s = .ok (0, s') ∧ v = none) ∨
      (∃ s1 t, u8 s = .ok (1, s1) ∧ readTransform T s1 = .ok (t, s') ∧ v = some t) := by
  simp only [readOptionalTransform, bind_eq_ok, failWhen_eq_ok, decide_eq_false_iff_not]
  constructor
  · rintro ⟨present, s1, hu8, _, _, ⟨hle, rfl⟩, h⟩
    split at h
    · rename_i h0
      obtain ⟨rfl, rfl⟩ := pure_eq_ok.1 h
      rw [h0] at hu8
      exact Or.inl ⟨hu8, rfl⟩
    · rename_i h0
      obtain ⟨t, s2, ht, hv⟩ := bind_eq_ok.1 h
      obtain ⟨rfl, rfl⟩ := pure_eq_ok.1 hv
      have h1 : present = 1 := by
        rw [gt_iff_lt, UInt8.lt_iff_toNat_lt] at hle
        have hne : present.toNat ≠ 0 := fun hz => h0 (UInt8.toNat_inj.1 hz)
        apply UInt8.toNat_inj.1
        change ¬1 < present.toNat at hle
        change present.toNat = 1
        omega
      rw [h1] at hu8
      exact Or.inr ⟨_, t, hu8, ht, rfl⟩
  · rintro (⟨hu8, rfl⟩ | ⟨s1, t, hu8, ht, rfl⟩)
    · exact ⟨0, s', hu8, (), s', ⟨by decide, rfl⟩, pure_eq_ok.2 ⟨rfl, rfl⟩⟩
    · exact ⟨1, s1, hu8, (), s1, ⟨by decide, rfl⟩,
        bind_eq_ok.2 ⟨t, s', ht, pure_eq_ok.2 ⟨rfl, rfl⟩⟩⟩

theorem optional_delivers {transform : Option WireTransform} {b : Bytes}
    (h : addV2Optional addV2Transform transform = .ok b) :
    Delivers (Fueled T fuel) (readOptionalTransform T) ⟨b, optionalUsage T transform⟩
      (transform.map transformMeaning) := by
  intro s s' hs
  rw [readOptionalTransform_eq_ok]
  cases transform with
  | none =>
    cases h
    exact Or.inl ⟨u8_delivers 0 s s' hs, rfl⟩
  | some transform =>
    rw [addV2Optional_some, emit_append_eq_ok] at h
    obtain ⟨_, b2, h1, h2, rfl⟩ := h
    cases h1
    obtain ⟨s1, hs1, hs2⟩ := (fueled_splitting T fuel).add (a := ⟨[1], scalarUsage⟩)
      (b := ⟨b2, transformUsage T transform⟩) hs
    exact Or.inr ⟨s1, _, u8_delivers 1 s s1 hs1, transform_delivers h2 s1 s' hs2, rfl⟩

theorem optional_gathers : Gathers (Consumes T) (readOptionalTransform T)
    (Spells (addV2Optional addV2Transform) (Option.map transformMeaning) (optionalUsage T)) := by
  intro s v s' h
  rcases readOptionalTransform_eq_ok.1 h with ⟨hu8, rfl⟩ | ⟨s1, t, hu8, ht, rfl⟩
  · obtain ⟨_, rfl, hs⟩ := u8_gathers (T := T) s 0 s' hu8
    exact ⟨_, ⟨none, rfl, rfl, rfl⟩, hs⟩
  · obtain ⟨_, rfl, hs1⟩ := u8_gathers (T := T) s 1 s1 hu8
    obtain ⟨p, ⟨transform, rfl, hb, hu⟩, hs2⟩ := transform_gathers (T := T) s1 t s' ht
    refine ⟨_, ⟨some transform, rfl, ?_, ?_⟩, (consumes_joining T).add hs1 hs2⟩
    · rw [addV2Optional_some, hb]
      rfl
    · rw [Portion.add_usage, hu]
      rfl

/-! ### Sized types and flagged values -/

theorem sized_delivers {sized : WireSized} {b : Bytes} (h : addV2Sized sized = .ok b) :
    Delivers (Fueled T fuel) (readSized T) ⟨b, sizedUsage T sized⟩ (sizedMeaning sized) := by
  simp only [addV2Sized, emit_append_assoc, emit_append_eq_ok] at h
  obtain ⟨_, _, h1, ⟨_, _, h2, ⟨_, _, h3, h4, rfl⟩, rfl⟩, rfl⟩ := h
  refine withDepth_delivers_of_all (p := ⟨_, _⟩) ?_
  simp only [add_assoc]
  refine read_bind (string_delivers h1) (read_bind (exprs_delivers h2) (read_bind
    (string_delivers h3) ?_))
  exact read_map _ (string_delivers h4)

theorem sized_gathers : Gathers (Consumes T) (readSized T)
    (Spells addV2Sized sizedMeaning (sizedUsage T)) := by
  have hJ := consumes_joining T
  refine withDepth_gathers (hJ.bind string_gathers ?_)
  rintro base p1 ⟨h1, u1⟩
  refine hJ.bind exprs_gathers ?_
  rintro _ p2 ⟨dims, rfl, h2, u2⟩
  refine hJ.bind string_gathers ?_
  rintro elemBase p3 ⟨h3, u3⟩
  refine hJ.bind string_gathers ?_
  rintro raw p4 ⟨h4, u4⟩
  refine hJ.pure ⟨⟨base, dims, elemBase, raw⟩, rfl, ?_, ?_⟩
  · simp [addV2Sized, h1, h2, h3, h4, Portion.deepen]
  · simp [sizedUsage, Portion.deepen, u1, u2, u3, u4, add_assoc]

theorem flagged_delivers {flag : Bool} {expr : WireExpr} {b : Bytes}
    (h : addFlagged flag (addV2Expr expr) = .ok b) :
    Delivers (Fueled T fuel) (readFlagged flag (readExpr T))
      ⟨b, flaggedUsage flag (exprUsage T expr)⟩ (flaggedMeaning flag expr) := by
  cases flag with
  | false =>
    cases h
    exact (fueled_splitting T fuel).pure _
  | true => exact expr_delivers h

theorem flagged_gathers (flag : Bool) : Gathers (Consumes T) (readFlagged flag (readExpr T))
    (Spells (fun expr => addFlagged flag (addV2Expr expr)) (flaggedMeaning flag)
      fun expr => flaggedUsage flag (exprUsage T expr)) := by
  cases flag with
  | false => exact (consumes_joining T).pure ⟨{}, rfl, rfl, rfl⟩
  | true => exact expr_gathers

/-! ### Statement fields -/

def stmtTag : Mir.StmtKind → UInt8
  | .decl => 0
  | .assignment => 1
  | .targetPE => 2
  | .block => 3
  | .sList => 4
  | .for => 5
  | .ifElse => 6
  | .while => 7
  | .nrFunApp => 8
  | .return => 9
  | .break => 10
  | .continue => 11
  | .skip => 12
  | .unsupported => 13

theorem stmtTag_get (kind : Mir.StmtKind) : kStmtTags[(stmtTag kind).toNat]? = some kind := by
  cases kind <;> rfl

/-- What `add_v2_stmt` emits behind the tag. -/
def addStmtFields (stmt : WireStmt) (body : Emit) : Emit :=
  match stmt.kind with
  | .decl =>
    addV2String stmt.declId ++ addV2Sized stmt.declType ++ addV2Bool stmt.declDataOnly ++
      addV2Bool stmt.hasInit ++ addFlagged stmt.hasInit (addV2Expr stmt.init) ++
      addV2Optional addV2Transform stmt.readTransform ++ addV2List addV2Expr stmt.readDims ++
      addV2String stmt.raw
  | .assignment =>
    addV2String stmt.lhs ++ addV2List addV2Expr stmt.lhsIdx ++ addV2Expr stmt.rhs ++
      addV2String stmt.raw
  | .targetPE => addV2Expr stmt.target ++ addV2String stmt.raw
  | .block | .sList => body ++ addV2String stmt.raw
  | .for =>
    addV2String stmt.loopvar ++ addV2Expr stmt.lower ++ addV2Expr stmt.upper ++ body ++
      addV2String stmt.raw
  | .ifElse | .while => addV2Expr stmt.cond ++ body ++ addV2String stmt.raw
  | .nrFunApp =>
    addV2String stmt.fnName ++ addV2List addV2Expr stmt.fnArgs ++
      addV2Optional addV2Transform stmt.checkTransform ++ addV2String stmt.checkVarName ++
      addV2String stmt.raw
  | .return =>
    addV2Bool stmt.hasInit ++ addFlagged stmt.hasInit (addV2Expr stmt.rhs) ++ addV2String stmt.raw
  | .break | .continue => .ok []
  | .skip | .unsupported => addV2String stmt.raw

theorem addV2Stmt_parts (stmt : WireStmt) :
    addV2Stmt stmt = .ok [stmtTag stmt.kind] ++
      addStmtFields stmt (addV2List addV2Stmt stmt.body) := by
  rw [addV2Stmt_eq, addV2StmtWith, addStmtFields]
  cases stmt.kind <;> simp only [emit_append_assoc] <;> rfl

theorem addV2Stmt_eq_ok {stmt : WireStmt} {b : Bytes} :
    addV2Stmt stmt = .ok b ↔ ∃ b1,
      addStmtFields stmt (addV2List addV2Stmt stmt.body) = .ok b1 ∧
        b = stmtTag stmt.kind :: b1 := by
  rw [addV2Stmt_parts, emit_append_eq_ok]
  constructor
  · rintro ⟨a, b1, ha, h1, rfl⟩
    cases ha
    exact ⟨b1, h1, rfl⟩
  · rintro ⟨b1, h1, rfl⟩
    exact ⟨_, _, rfl, h1, rfl⟩

theorem addV2Stmt_pos (stmt : WireStmt) (b : Bytes) (h : addV2Stmt stmt = .ok b) :
    1 ≤ b.length := by
  obtain ⟨b1, -, rfl⟩ := addV2Stmt_eq_ok.1 h
  exact Nat.succ_pos _

theorem stmtFields_delivers {stmt : WireStmt} {readBody : Read (List Mir.Stmt)} {b : Bytes}
    (hbody : ∀ b, addV2List addV2Stmt stmt.body = .ok b →
      Delivers (Fueled T fuel) readBody ⟨b, stmtsUsage T stmt.body⟩ (stmt.body.map stmtMeaning))
    (h : addStmtFields stmt (addV2List addV2Stmt stmt.body) = .ok b) :
    Delivers (Fueled T fuel) (readStmtFields T stmt.kind readBody)
      ⟨b, stmtFieldsUsage T stmt (stmtsUsage T stmt.body)⟩
      (stmtFields stmt (stmt.body.map stmtMeaning)) := by
  rw [addStmtFields] at h
  rw [stmtFieldsUsage, stmtFields]
  cases hk : stmt.kind <;> simp only [hk, emit_append_assoc, emit_append_eq_ok, add_assoc] at h ⊢
  case decl =>
    obtain ⟨_, _, h1, ⟨_, _, h2, ⟨_, _, h3, ⟨_, _, h4, ⟨_, _, h5, ⟨_, _, h6, ⟨_, _, h7, h8, rfl⟩,
      rfl⟩, rfl⟩, rfl⟩, rfl⟩, rfl⟩, rfl⟩ := h
    refine read_bind (string_delivers h1) (read_bind (sized_delivers h2) (read_bind
      (boolean_delivers h3) (read_bind (boolean_delivers h4) (read_bind (flagged_delivers h5)
      (read_bind (optional_delivers h6) (read_bind (exprs_delivers h7) ?_))))))
    exact read_map _ (string_delivers h8)
  case assignment =>
    obtain ⟨_, _, h1, ⟨_, _, h2, ⟨_, _, h3, h4, rfl⟩, rfl⟩, rfl⟩ := h
    refine read_bind (string_delivers h1) (read_bind (exprs_delivers h2) (read_bind
      (expr_delivers h3) ?_))
    exact read_map _ (string_delivers h4)
  case targetPE =>
    obtain ⟨_, _, h1, h2, rfl⟩ := h
    refine read_bind (expr_delivers h1) ?_
    exact read_map _ (string_delivers h2)
  case block | sList =>
    obtain ⟨_, _, h1, h2, rfl⟩ := h
    refine read_bind (hbody _ h1) ?_
    exact read_map _ (string_delivers h2)
  case «for» =>
    obtain ⟨_, _, h1, ⟨_, _, h2, ⟨_, _, h3, ⟨_, _, h4, h5, rfl⟩, rfl⟩, rfl⟩, rfl⟩ := h
    refine read_bind (string_delivers h1) (read_bind (expr_delivers h2) (read_bind
      (expr_delivers h3) (read_bind (hbody _ h4) ?_)))
    exact read_map _ (string_delivers h5)
  case ifElse | «while» =>
    obtain ⟨_, _, h1, ⟨_, _, h2, h3, rfl⟩, rfl⟩ := h
    refine read_bind (expr_delivers h1) (read_bind (hbody _ h2) ?_)
    exact read_map _ (string_delivers h3)
  case nrFunApp =>
    obtain ⟨_, _, h1, ⟨_, _, h2, ⟨_, _, h3, ⟨_, _, h4, h5, rfl⟩, rfl⟩, rfl⟩, rfl⟩ := h
    refine read_bind (string_delivers h1) (read_bind (exprs_delivers h2) (read_bind
      (optional_delivers h3) (read_bind (string_delivers h4) ?_)))
    by_cases hname : stmt.fnName = ascii "FnWriteParam"
    · simp only [hname, if_true]
      exact read_map _ (string_delivers h5)
    · simp only [hname, if_false]
      exact read_map _ (string_delivers h5)
  case «return» =>
    obtain ⟨_, _, h1, ⟨_, _, h2, h3, rfl⟩, rfl⟩ := h
    refine read_bind (boolean_delivers h1) (read_bind (flagged_delivers h2) ?_)
    exact read_map _ (string_delivers h3)
  case «break» | «continue» =>
    cases h
    exact (fueled_splitting T fuel).pure _
  case skip | unsupported => exact read_map _ (string_delivers h)

/-- What was read for the fields of a statement of a kind: some record spells it. -/
def FieldsSpelled (T : Target) (kind : Mir.StmtKind) (v : Mir.Stmt) (p : Portion) : Prop :=
  ∃ stmt : WireStmt, stmt.kind = kind ∧ stmtFields stmt (stmt.body.map stmtMeaning) = v ∧
    addStmtFields stmt (addV2List addV2Stmt stmt.body) = .ok p.bytes ∧
    p.usage = stmtFieldsUsage T stmt (stmtsUsage T stmt.body)

theorem declFields_gathers {readBody : Read (List Mir.Stmt)} :
    Gathers (Consumes T) (readStmtFields T .decl readBody) (FieldsSpelled T .decl) := by
  have hJ := consumes_joining T
  refine hJ.bind string_gathers ?_
  rintro declId p1 ⟨h1, u1⟩
  refine hJ.bind sized_gathers ?_
  rintro _ p2 ⟨declType, rfl, h2, u2⟩
  refine hJ.bind boolean_gathers ?_
  rintro declDataOnly p3 ⟨h3, u3⟩
  refine hJ.bind boolean_gathers ?_
  rintro hasInit p4 ⟨h4, u4⟩
  refine hJ.bind (flagged_gathers hasInit) ?_
  rintro _ p5 ⟨init, rfl, h5, u5⟩
  refine hJ.bind optional_gathers ?_
  rintro _ p6 ⟨readTransform, rfl, h6, u6⟩
  refine hJ.bind exprs_gathers ?_
  rintro _ p7 ⟨readDims, rfl, h7, u7⟩
  refine hJ.bind string_gathers ?_
  rintro raw p8 ⟨h8, u8⟩
  refine hJ.pure ⟨{ kind := .decl, declId, declType, declDataOnly, hasInit, init, readTransform,
                    readDims, raw }, rfl, rfl, ?_, ?_⟩
  · simp [addStmtFields, h1, h2, h3, h4, h5, h6, h7, h8]
  · simp [stmtFieldsUsage, u1, u2, u3, u4, u5, u6, u7, u8, add_assoc]

theorem nrFunAppFields_gathers {readBody : Read (List Mir.Stmt)} :
    Gathers (Consumes T) (readStmtFields T .nrFunApp readBody) (FieldsSpelled T .nrFunApp) := by
  have hJ := consumes_joining T
  refine hJ.bind string_gathers ?_
  rintro fnName p1 ⟨h1, u1⟩
  refine hJ.bind exprs_gathers ?_
  rintro _ p2 ⟨fnArgs, rfl, h2, u2⟩
  refine hJ.bind optional_gathers ?_
  rintro _ p3 ⟨checkTransform, rfl, h3, u3⟩
  refine hJ.bind string_gathers ?_
  rintro checkVarName p4 ⟨h4, u4⟩
  refine hJ.bind string_gathers ?_
  rintro raw p5 ⟨h5, u5⟩
  have hspelled : ∀ v, stmtFields
      { kind := .nrFunApp, fnName, fnArgs, checkTransform, checkVarName, raw } [] = v →
      FieldsSpelled T .nrFunApp v (p1 + (p2 + (p3 + (p4 + (p5 + 0))))) := by
    rintro v rfl
    refine ⟨{ kind := .nrFunApp, fnName, fnArgs, checkTransform, checkVarName, raw }, rfl, rfl, ?_,
      ?_⟩
    · simp [addStmtFields, h1, h2, h3, h4, h5]
    · simp [stmtFieldsUsage, u1, u2, u3, u4, u5, add_assoc]
  split
  · rename_i hname
    refine hJ.pure (hspelled _ ?_)
    simp only [stmtFields, if_pos hname]
  · rename_i hname
    refine hJ.pure (hspelled _ ?_)
    simp only [stmtFields, if_neg hname]

/-- The fields of a statement of a kind, as some record spells them. -/
theorem stmtFields_gathers {readBody : Read (List Mir.Stmt)} (kind : Mir.StmtKind)
    (hbody : Gathers (Consumes T) readBody
      (Spells (addV2List addV2Stmt) (List.map stmtMeaning) (stmtsUsage T))) :
    Gathers (Consumes T) (readStmtFields T kind readBody) (FieldsSpelled T kind) := by
  have hJ := consumes_joining T
  cases kind
  case decl => exact declFields_gathers
  case assignment =>
    refine hJ.bind string_gathers ?_
    rintro lhs p1 ⟨h1, u1⟩
    refine hJ.bind exprs_gathers ?_
    rintro _ p2 ⟨lhsIdx, rfl, h2, u2⟩
    refine hJ.bind expr_gathers ?_
    rintro _ p3 ⟨rhs, rfl, h3, u3⟩
    refine hJ.bind string_gathers ?_
    rintro raw p4 ⟨h4, u4⟩
    refine hJ.pure ⟨{ kind := .assignment, lhs, lhsIdx, rhs, raw }, rfl, rfl, ?_, ?_⟩
    · simp [addStmtFields, h1, h2, h3, h4]
    · simp [stmtFieldsUsage, u1, u2, u3, u4, add_assoc]
  case targetPE =>
    refine hJ.bind expr_gathers ?_
    rintro _ p1 ⟨target, rfl, h1, u1⟩
    refine hJ.bind string_gathers ?_
    rintro raw p2 ⟨h2, u2⟩
    refine hJ.pure ⟨{ kind := .targetPE, target, raw }, rfl, rfl, ?_, ?_⟩
    · simp [addStmtFields, h1, h2]
    · simp [stmtFieldsUsage, u1, u2]
  case block | sList =>
    refine hJ.bind hbody ?_
    rintro _ p1 ⟨body, rfl, h1, u1⟩
    refine hJ.bind string_gathers ?_
    rintro raw p2 ⟨h2, u2⟩
    refine hJ.pure ⟨{ kind := _, body, raw }, rfl, rfl, ?_, ?_⟩
    · simp [addStmtFields, h1, h2]
    · simp [stmtFieldsUsage, u1, u2]
  case «for» =>
    refine hJ.bind string_gathers ?_
    rintro loopvar p1 ⟨h1, u1⟩
    refine hJ.bind expr_gathers ?_
    rintro _ p2 ⟨lower, rfl, h2, u2⟩
    refine hJ.bind expr_gathers ?_
    rintro _ p3 ⟨upper, rfl, h3, u3⟩
    refine hJ.bind hbody ?_
    rintro _ p4 ⟨body, rfl, h4, u4⟩
    refine hJ.bind string_gathers ?_
    rintro raw p5 ⟨h5, u5⟩
    refine hJ.pure ⟨{ kind := .for, loopvar, lower, upper, body, raw }, rfl, rfl, ?_, ?_⟩
    · simp [addStmtFields, h1, h2, h3, h4, h5]
    · simp [stmtFieldsUsage, u1, u2, u3, u4, u5, add_assoc]
  case ifElse | «while» =>
    refine hJ.bind expr_gathers ?_
    rintro _ p1 ⟨cond, rfl, h1, u1⟩
    refine hJ.bind hbody ?_
    rintro _ p2 ⟨body, rfl, h2, u2⟩
    refine hJ.bind string_gathers ?_
    rintro raw p3 ⟨h3, u3⟩
    refine hJ.pure ⟨{ kind := _, cond, body, raw }, rfl, rfl, ?_, ?_⟩
    · simp [addStmtFields, h1, h2, h3]
    · simp [stmtFieldsUsage, u1, u2, u3, add_assoc]
  case nrFunApp => exact nrFunAppFields_gathers
  case «return» =>
    refine hJ.bind boolean_gathers ?_
    rintro hasInit p1 ⟨h1, u1⟩
    refine hJ.bind (flagged_gathers hasInit) ?_
    rintro _ p2 ⟨rhs, rfl, h2, u2⟩
    refine hJ.bind string_gathers ?_
    rintro raw p3 ⟨h3, u3⟩
    refine hJ.pure ⟨{ kind := .return, hasInit, rhs, raw }, rfl, rfl, ?_, ?_⟩
    · simp [addStmtFields, h1, h2, h3]
    · simp [stmtFieldsUsage, u1, u2, u3, add_assoc]
  case «break» | «continue» => exact hJ.pure ⟨{ kind := _ }, rfl, rfl, rfl, rfl⟩
  case skip | unsupported =>
    refine hJ.bind string_gathers ?_
    rintro raw p ⟨hb, hu⟩
    exact hJ.pure ⟨{ kind := _, raw }, rfl, rfl, by rw [add_zero]; exact hb,
      by rw [add_zero]; exact hu⟩

/-! ### Statements -/

theorem stmtUsage_deepen (stmt : WireStmt) (b : Bytes) :
    (⟨stmtTag stmt.kind :: b, stmtUsage T stmt⟩ : Portion) =
      Portion.deepen ⟨stmtTag stmt.kind :: b, scalarUsage +
        stmtFieldsUsage T stmt (stmtsUsage T stmt.body)⟩ := by
  rw [stmtUsage_eq]
  rfl

theorem stmtUsage_depth_pos (stmt : WireStmt) : 0 < (stmtUsage T stmt).depth := by
  rw [stmtUsage_eq]
  exact Nat.succ_pos _

/-- With enough fuel for the scopes that are left, an encoded statement is read back. -/
theorem stmtAt_delivers (fuel : ℕ) : ∀ (stmt : WireStmt) (b : Bytes), addV2Stmt stmt = .ok b →
    Delivers (Fueled T fuel) (readStmtAt T fuel) ⟨b, stmtUsage T stmt⟩ (stmtMeaning stmt) := by
  induction fuel with
  | zero =>
    rintro stmt b - s s' ⟨hfuel, hs⟩
    have hroom := hs.room.depth (stmtUsage_depth_pos stmt)
    have hpos := stmtUsage_depth_pos (T := T) stmt
    simp only at hroom
    omega
  | succ fuel ih =>
    intro stmt b h
    obtain ⟨b1, h1, rfl⟩ := addV2Stmt_eq_ok.1 h
    rw [stmtUsage_deepen, stmtMeaning_eq]
    refine withDepth_delivers (read_tag (stmtTag_get stmt.kind) ?_)
    exact stmtFields_delivers (fun a ha => spelled_list_delivers ih addV2Stmt_pos ha) h1

theorem stmt_delivers {stmt : WireStmt} {b : Bytes} (h : addV2Stmt stmt = .ok b) :
    Delivers (Fueled T fuel) (readStmt T) ⟨b, stmtUsage T stmt⟩ (stmtMeaning stmt) :=
  (stmtAt_delivers _ stmt b h).mono fun _ _ _ hs => fueled_full hs.consumes

theorem stmts_delivers {stmts : List WireStmt} {b : Bytes}
    (h : addV2List addV2Stmt stmts = .ok b) :
    Delivers (Fueled T fuel) (readStmts T) ⟨b, stmtsUsage T stmts⟩ (stmts.map stmtMeaning) :=
  spelled_list_delivers (fun _ _ hw => stmt_delivers hw) addV2Stmt_pos h

theorem stmtAt_gathers (fuel : ℕ) :
    Gathers (Consumes T) (readStmtAt T fuel) (Spells addV2Stmt stmtMeaning (stmtUsage T)) := by
  induction fuel with
  | zero => exact Gathers.throw _
  | succ fuel ih =>
    refine withDepth_gathers (tag_gathers fun tag kind htag => ?_)
    refine Gathers.mono (stmtFields_gathers kind (list_gathers ih)) ?_
    rintro _ p ⟨stmt, rfl, rfl, hb, hu⟩
    refine ⟨stmt, stmtMeaning_eq stmt, ?_, ?_⟩
    · rw [addV2Stmt_eq_ok, tag_unique (by decide) htag (stmtTag_get stmt.kind)]
      exact ⟨_, hb, rfl⟩
    · rw [stmtUsage_eq]
      simp [Portion.deepen, hu]
      rfl

theorem stmt_gathers :
    Gathers (Consumes T) (readStmt T) (Spells addV2Stmt stmtMeaning (stmtUsage T)) :=
  stmtAt_gathers _

theorem stmts_gathers : Gathers (Consumes T) (readStmts T)
    (Spells (addV2List addV2Stmt) (List.map stmtMeaning) (stmtsUsage T)) :=
  list_gathers stmt_gathers

end

end Stanli.PortableMir
