import Stanli.Mir.Shape

namespace Stanli.Mir

/-! ### Well-shaped programs

What the shape pass is for, said of the tree alone: every expression, transform, type and statement
has the arguments, dimensions and bodies that its kind asks for. -/

variable {R : Registry}

/-- One node of an expression has the arguments its kind requires; what follows the base of an
`Indexed` is a list of descriptors. -/
structure NodeShaped (R : Registry) (e : Expr) : Prop where
  arity : validateArity R e = .ok ()
  indices : e.kind = .indexed → ∀ i ∈ e.args.tail, isIndex i = true

/-- Every node of the expression does. -/
def ExprShaped (R : Registry) (e : Expr) : Prop := e.All (NodeShaped R)

structure TransformShaped (R : Registry) (t : Transform) : Prop where
  arity : validateTransformArity t = .ok ()
  args : ∀ a ∈ t.args, ExprShaped R a

structure SizedShaped (R : Registry) (type : SizedType) : Prop where
  arity : validateSizedArity type = .ok ()
  dims : ∀ d ∈ type.dims, ExprShaped R d

/-- One statement, wherever it holds an expression. -/
structure StmtShaped (R : Registry) (s : Stmt) : Prop where
  type : validateSizedArity s.declType = .ok ()
  operands : ∀ e ∈ s.operands, ExprShaped R e
  target : ExprShaped R s.target
  indices : ∀ i ∈ s.lhsIdx, isIndex i = true
  transforms : ∀ t ∈ s.transforms, TransformShaped R t
  body : validateBody s = .ok ()

structure ProgramShaped (R : Registry) (p : Program) : Prop where
  inputs : ∀ input ∈ p.inputVars, SizedShaped R input.2
  stmts : ∀ s ∈ p.stmts, s.All (StmtShaped R)

/-! ### Expressions -/

/-- The rule for a kind looks at the name, the library and the number of arguments only. -/
theorem validateArity_congr {e e' : Expr} (hkind : e.kind = e'.kind) (hlib : e.fnLib = e'.fnLib)
    (hname : e.name = e'.name) (hargs : e.args.length = e'.args.length) :
    validateArity R e = validateArity R e' := by
  have hfun : validateFunappArity R e = validateFunappArity R e' := by
    unfold validateFunappArity validateLongCalls validateRegistered isNullaryConstant named
      requireArity requireEither wrongArity
    rw [hkind, hlib, hname, hargs]
  unfold validateArity
  rw [hkind, hargs, hfun]

/-- Outside calls the name does not matter either. -/
theorem validateArity_of_not_call {e e' : Expr} (hkind : e.kind = e'.kind)
    (hargs : e.args.length = e'.args.length) (hcall : e.kind ≠ .funApp) :
    validateArity R e = validateArity R e' := by
  have hcall' : e'.kind ≠ .funApp := hkind ▸ hcall
  unfold validateArity
  rw [← hkind, hargs]
  cases hk : e.kind <;> first | rfl | exact absurd hk hcall

theorem validateArity_of_userDefined {e : Expr} (hkind : e.kind = .funApp)
    (hlib : e.fnLib = .userDefined) : validateArity R e = .ok () := by
  simp only [validateArity, hkind, validateFunappArity, hlib, if_true]

theorem exprShaped_iff {e : Expr} :
    ExprShaped R e ↔ NodeShaped R e ∧ ∀ a ∈ e.args, ExprShaped R a :=
  Expr.all_iff

theorem indices_of_validate {es : List Expr} (ih : ∀ e ∈ es, validateExpressionShape R e = .ok () →
      ExprShaped R e) (h : validateIndices R es = .ok ()) :
    ∀ e ∈ es, isIndex e = true ∧ ExprShaped R e := by
  induction es with
  | nil =>
    intro e he
    cases he
  | cons e es ihes =>
    rw [validateIndices, checked_seq_eq_ok] at h
    obtain ⟨hindex, h⟩ := h
    obtain ⟨he, hes⟩ := checked_seq_eq_ok.1 h
    have htail := ihes (fun x hx => ih x (List.mem_cons_of_mem e hx)) hes
    intro x hx
    rcases List.mem_cons.1 hx with rfl | hx
    · refine ⟨?_, ih x List.mem_cons_self he⟩
      by_contra hnot
      rw [requireIndex, if_neg hnot] at hindex
      cases hindex
    · exact htail x hx

theorem arguments_of_validate {base : Bool} {es : List Expr}
    (ih : ∀ e ∈ es, validateExpressionShape R e = .ok () → ExprShaped R e)
    (h : validateArguments R base es = .ok ()) :
    (∀ e ∈ es, ExprShaped R e) ∧ (base = true → ∀ i ∈ es.tail, isIndex i = true) := by
  induction es generalizing base with
  | nil =>
    refine ⟨?_, ?_⟩
    · intro e he
      cases he
    · intro _ i hi
      cases hi
  | cons e es ihes =>
    rw [validateArguments, checked_seq_eq_ok] at h
    obtain ⟨he, hes⟩ := h
    have htail : ∀ x ∈ es, validateExpressionShape R x = .ok () → ExprShaped R x :=
      fun x hx => ih x (List.mem_cons_of_mem e hx)
    have hhead : ExprShaped R e := ih e List.mem_cons_self he
    cases base with
    | false =>
      refine ⟨?_, fun hbase => absurd hbase Bool.false_ne_true⟩
      intro x hx
      rcases List.mem_cons.1 hx with rfl | hx
      · exact hhead
      · exact (ihes htail hes).1 x hx
    | true =>
      have hindices := indices_of_validate htail hes
      refine ⟨?_, fun _ i hi => (hindices i hi).1⟩
      intro x hx
      rcases List.mem_cons.1 hx with rfl | hx
      · exact hhead
      · exact (hindices x hx).2

theorem exprShaped_of_validate {e : Expr} (h : validateExpressionShape R e = .ok ()) :
    ExprShaped R e := by
  induction e using Expr.induction with
  | step e ih =>
    cases e
    rw [validateExpressionShape] at h
    obtain ⟨-, h⟩ := checked_seq_eq_ok.1 h
    obtain ⟨harity, h⟩ := checked_seq_eq_ok.1 h
    obtain ⟨hargs, hindices⟩ := arguments_of_validate ih h
    refine exprShaped_iff.2 ⟨⟨harity, ?_⟩, hargs⟩
    intro hkind
    exact hindices (by simpa using hkind)

theorem expressions_of_validate {es : List Expr} (h : validateExpressions R es = .ok ()) :
    ∀ e ∈ es, ExprShaped R e :=
  (arguments_of_validate (fun _ _ => exprShaped_of_validate) h).1

/-! ### Transforms, types and statements -/

theorem transformShaped_of_validate {t : Transform} (h : validateTransformShape R t = .ok ()) :
    TransformShaped R t := by
  obtain ⟨harity, hargs⟩ := checked_seq_eq_ok.1 h
  exact ⟨harity, expressions_of_validate hargs⟩

theorem sizedShaped_of_validate {type : SizedType} (h : validateSizedTypeShape R type = .ok ()) :
    SizedShaped R type := by
  obtain ⟨harity, hdims⟩ := checked_seq_eq_ok.1 h
  exact ⟨harity, expressions_of_validate hdims⟩

/-- What the shape pass establishes of one statement: everything but the transform of a write. -/
structure StmtValidated (R : Registry) (s : Stmt) : Prop where
  type : validateSizedArity s.declType = .ok ()
  operands : ∀ e ∈ s.operands, ExprShaped R e
  target : ExprShaped R s.target
  indices : ∀ i ∈ s.lhsIdx, isIndex i = true
  read : ∀ t, s.readTransform = some t → TransformShaped R t
  check : ∀ t, s.checkTransform = some t → TransformShaped R t
  body : validateBody s = .ok ()

theorem optional_of_validate {t : Option Transform}
    (h : validateOptional (validateTransformShape R) t = .ok ()) :
    ∀ x, t = some x → TransformShaped R x := by
  rintro x rfl
  exact transformShaped_of_validate h

theorem stmtValidated_of_validate {s : Stmt} (h : validateStatementNode R s = .ok ()) :
    StmtValidated R s := by
  obtain ⟨htype, h⟩ := checked_seq_eq_ok.1 h
  obtain ⟨hfields, h⟩ := checked_seq_eq_ok.1 h
  obtain ⟨hlists, h⟩ := checked_seq_eq_ok.1 h
  obtain ⟨hindices, h⟩ := checked_seq_eq_ok.1 h
  obtain ⟨hread, h⟩ := checked_seq_eq_ok.1 h
  obtain ⟨hcheck, hbody⟩ := checked_seq_eq_ok.1 h
  have hsized := sizedShaped_of_validate htype
  have hfields' := expressions_of_validate hfields
  have hlists' := expressions_of_validate hlists
  have hindices' := indices_of_validate (fun _ _ => exprShaped_of_validate) hindices
  refine ⟨hsized.arity, ?_, hfields' _ (by simp), fun i hi => (hindices' i hi).1,
    optional_of_validate hread, optional_of_validate hcheck, hbody⟩
  intro e he
  simp only [Stmt.operands, List.append_assoc, List.mem_append] at he
  rcases he with he | he | he
  · exact hsized.dims e he
  · apply hfields'
    simp only [List.mem_cons] at he ⊢
    tauto
  · apply hlists'
    simpa [List.mem_append] using he

theorem statements_of_validate {ss : List Stmt} (ih : ∀ s ∈ ss, validateStatementShape R s = .ok () →
      s.All (StmtValidated R)) (h : validateStatements R ss = .ok ()) :
    ∀ s ∈ ss, s.All (StmtValidated R) := by
  induction ss with
  | nil =>
    intro s hs
    cases hs
  | cons s ss ihss =>
    rw [validateStatements, checked_seq_eq_ok] at h
    obtain ⟨hs, hss⟩ := h
    intro x hx
    rcases List.mem_cons.1 hx with rfl | hx
    · exact ih x List.mem_cons_self hs
    · exact ihss (fun y hy => ih y (List.mem_cons_of_mem s hy)) hss x hx

theorem stmt_of_validate {s : Stmt} (h : validateStatementShape R s = .ok ()) :
    s.All (StmtValidated R) := by
  induction s using Stmt.induction with
  | step s ih =>
    cases s
    rw [validateStatementShape] at h
    obtain ⟨hnode, hbody⟩ := checked_seq_eq_ok.1 h
    exact Stmt.all_iff.2 ⟨stmtValidated_of_validate hnode, statements_of_validate ih hbody⟩

/-- What the shape pass establishes of a program. -/
structure ProgramValidated (R : Registry) (p : Program) : Prop where
  inputs : ∀ input ∈ p.inputVars, SizedShaped R input.2
  stmts : ∀ s ∈ p.stmts, s.All (StmtValidated R)

theorem forM_eq_ok {α : Type} {f : α → Checked Unit} {l : List α} (h : l.forM f = .ok ()) :
    ∀ x ∈ l, f x = .ok () := by
  induction l with
  | nil =>
    intro x hx
    cases hx
  | cons a l ih =>
    rw [List.forM_eq_forM, List.forM_cons, checked_seq_eq_ok] at h
    obtain ⟨ha, hl⟩ := h
    intro x hx
    rcases List.mem_cons.1 hx with rfl | hx
    · exact ha
    · exact ih hl x hx

theorem programValidated_of_validate {p : Program} (h : validateProgramShape R p = .ok ()) :
    ProgramValidated R p := by
  obtain ⟨hinputs, h⟩ := checked_seq_eq_ok.1 h
  obtain ⟨hprepare, h⟩ := checked_seq_eq_ok.1 h
  obtain ⟨hlog, h⟩ := checked_seq_eq_ok.1 h
  obtain ⟨hgenerate, h⟩ := checked_seq_eq_ok.1 h
  obtain ⟨hinits, hfuns⟩ := checked_seq_eq_ok.1 h
  have hstmts : ∀ {ss : List Stmt}, validateStatements R ss = .ok () →
      ∀ s ∈ ss, s.All (StmtValidated R) := fun h => statements_of_validate (fun _ _ => stmt_of_validate) h
  refine ⟨fun input hin => sizedShaped_of_validate (forM_eq_ok hinputs input hin), ?_⟩
  intro s hs
  simp only [Program.stmts, List.mem_append, List.mem_flatMap] at hs
  rcases hs with (((hs | hs) | hs) | hs) | ⟨f, hf, hs⟩
  · exact hstmts hprepare s hs
  · exact hstmts hlog s hs
  · exact hstmts hgenerate s hs
  · exact hstmts hinits s hs
  · obtain ⟨-, hbody⟩ := checked_seq_eq_ok.1 (forM_eq_ok hfuns f hf)
    exact hstmts hbody s hs

end Stanli.Mir
