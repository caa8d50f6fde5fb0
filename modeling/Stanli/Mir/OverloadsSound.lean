import Stanli.Mir.Overloads

namespace Stanli.Mir

/-! ### Nodes -/

section Nodes

variable (shared : List Bytes)

theorem resolvedNode_eq (e : Expr) :
    resolvedNode shared e = { e with name := (resolvedNode shared e).name } := by
  cases e
  unfold resolvedNode
  split
  · split <;> rfl
  · rfl

theorem resolvedNode_args (e : Expr) : (resolvedNode shared e).args = e.args := by
  rw [resolvedNode_eq]

theorem resolvedExpr_eq (e : Expr) :
    resolvedExpr shared e =
      resolvedNode shared { e with args := e.args.map (resolvedExpr shared) } :=
  Expr.mapNodes_eq (resolvedNode shared) e

theorem resolvedExpr_unsized (e : Expr) : (resolvedExpr shared e).unsized = e.unsized := by
  rw [resolvedExpr_eq, resolvedNode_eq]

theorem map_resolvedExpr_unsized (es : List Expr) :
    (es.map (resolvedExpr shared)).map Expr.unsized = es.map Expr.unsized := by
  rw [List.map_map]
  exact List.map_congr_left fun e _ => resolvedExpr_unsized shared e

/-- Renaming the arguments of a reference changes none of its argument types. -/
theorem referenceViews_mapArgs (e : Expr) :
    Expr.referenceViews { e with args := e.args.map (resolvedExpr shared) } = e.referenceViews := by
  simp only [Expr.referenceViews, siteViews, map_resolvedExpr_unsized]

theorem isReference_resolvedExpr (e : Expr) :
    (resolvedExpr shared e).isReference = e.isReference := by
  rw [resolvedExpr_eq, resolvedNode_eq]
  rfl

theorem referenceViews_resolvedExpr (e : Expr) :
    (resolvedExpr shared e).referenceViews = e.referenceViews := by
  rw [← referenceViews_mapArgs shared e, resolvedExpr_eq, resolvedNode_eq]
  rfl

/-- A reference takes the name of the definition it matches. -/
theorem resolvedExpr_name {e : Expr} {views : List UnsizedView} (href : e.isReference = true)
    (hviews : e.referenceViews = .ok views) :
    (resolvedExpr shared e).name = internalName shared e.name views := by
  have href' : Expr.isReference { e with args := e.args.map (resolvedExpr shared) } = true := href
  rw [resolvedExpr_eq, resolvedNode, if_pos href', referenceViews_mapArgs, hviews]

end Nodes

section Sound

variable {p : Program}

/-- The overload table of a program. -/
def Program.overloads (p : Program) : Overloads :=
  (sharedNames p.funDefs).map (overloadEntry p.funDefs)

theorem resolveOverload_of_matches {name : Bytes} {views : List UnsizedView}
    (h : p.Matches name views) (hshared : (sharedNames p.funDefs).contains name = true) :
    resolveOverload name (overloadEntry p.funDefs name).2 views =
      .ok (internalName (sharedNames p.funDefs) name views) := by
  rw [internalName_of_shared hshared]
  exact resolveOverload_eq h

theorem isReference_iff (e : Expr) :
    e.isReference = !(!(decide (e.kind = .funApp) && decide (e.fnLib = .userDefined)) &&
      !(decide (e.kind = .var) && (ascii "(UFun ").isPrefixOf e.raw)) := by
  rw [Bool.not_and, Bool.not_not, Bool.not_not]
  rfl

/-- `resolve_calls` renames one matched reference as the program with its overloads apart does. -/
theorem resolveNode_eq (hmatched : p.Matched) {x : Expr} (hx : p.HasExpr x) :
    resolveNode p.overloads { x with args := x.args.map (resolvedExpr (sharedNames p.funDefs)) } =
      .ok (resolvedNode (sharedNames p.funDefs)
        { x with args := x.args.map (resolvedExpr (sharedNames p.funDefs)) }) := by
  set y : Expr := { x with args := x.args.map (resolvedExpr (sharedNames p.funDefs)) } with hy
  have hviewsY : y.referenceViews = x.referenceViews := referenceViews_mapArgs _ x
  unfold resolveNode resolvedNode
  rw [isReference_iff y]
  dsimp only
  cases href : (!(decide (y.kind = .funApp) && decide (y.fnLib = .userDefined)) &&
      !(decide (y.kind = .var) && (ascii "(UFun ").isPrefixOf y.raw)) with
  | true => rfl
  | false =>
    have hrefX : x.isReference = true := by
      rw [isReference_iff]
      exact congrArg Bool.not href
    obtain ⟨views, hviews⟩ := hmatched.typed x hx hrefX
    have hmatch := hmatched.refers x.name views (.expr hx hrefX hviews)
    have hsite : siteViews (decide (y.kind = .funApp) && decide (y.fnLib = .userDefined)) y =
        .ok views := hviewsY.trans hviews
    rw [if_neg (by simp), if_pos (by simp), hviewsY, hviews, Program.overloads, findOverloads_eq]
    dsimp only
    cases hshared : (sharedNames p.funDefs).contains y.name with
    | true =>
      rw [if_pos rfl]
      dsimp only
      rw [hsite]
      dsimp only [bind, Except.bind]
      rw [resolveOverload_of_matches hmatch hshared]
      rfl
    | false =>
      rw [if_neg (by simp), internalName_of_not_shared hshared]

/-- `resolve_calls` on an expression of the program. -/
theorem resolveCalls_eq (hmatched : p.Matched) {e : Expr} (he : ∀ x, Expr.Within x e → p.HasExpr x) :
    resolveCalls p.overloads e = .ok (resolvedExpr (sharedNames p.funDefs) e) :=
  Expr.rewrite_pure fun x hx => resolveNode_eq hmatched (he x hx)

theorem resolveExprs_eq (hmatched : p.Matched) {es : List Expr}
    (hes : ∀ e ∈ es, ∀ x, Expr.Within x e → p.HasExpr x) :
    resolveExprs p.overloads es = .ok (es.map (resolvedExpr (sharedNames p.funDefs))) :=
  Expr.rewrites_all_pure fun e he => resolveCalls_eq hmatched (hes e he)

/-! ### Statements -/

/-- What `resolve_calls` makes of a statement: the transform of a write keeps its references. -/
def codedStmt (shared : List Bytes) (s : Stmt) : Stmt :=
  { resolvedStmt shared s with writeTransform := s.writeTransform }

theorem resolveStatementName_eq (hmatched : p.Matched) {s : Stmt} (hs : p.HasStmt s) :
    resolveStatementName p.overloads s = .ok (resolvedStatementName (sharedNames p.funDefs) s) := by
  unfold resolveStatementName resolvedStatementName
  cases hname : userDefinedStatementName s.fnName with
  | none => rfl
  | some parts =>
    obtain ⟨opened, name, rest⟩ := parts
    have hmatch := hmatched.refers name _ (.stmt hs hname)
    dsimp only
    rw [Program.overloads, findOverloads_eq]
    cases hshared : (sharedNames p.funDefs).contains name with
    | true =>
      rw [if_pos rfl]
      dsimp only
      rw [resolveOverload_of_matches hmatch hshared]
      rfl
    | false =>
      rw [if_neg (by simp), internalName_of_not_shared hshared,
        ← (userDefinedStatementName_eq_some.1 hname).2.2.2.2]

theorem resolveTransform_eq (hmatched : p.Matched) {t : Option Transform}
    (ht : ∀ t', t = some t' → ∀ e ∈ t'.args, ∀ x, Expr.Within x e → p.HasExpr x) :
    resolveTransform p.overloads t =
      .ok (t.map (resolvedTransform (sharedNames p.funDefs))) := by
  cases t with
  | none => rfl
  | some t =>
    rw [resolveTransform, resolveExprs_eq hmatched (ht t rfl)]
    rfl

theorem Stmt.mem_expressions {s : Stmt} {e : Expr} :
    e ∈ s.expressions ↔ e ∈ s.declType.dims ∨ e ∈ [s.init, s.rhs, s.lower, s.upper, s.cond] ∨
      e ∈ s.readDims ∨ e ∈ s.lhsIdx ∨ e ∈ s.fnArgs ∨ e = s.target ∨
      ∃ t ∈ s.transforms, e ∈ t.args := by
  simp [Stmt.expressions, Stmt.operands, or_assoc]

theorem Stmt.mem_expressions_of_transform {s : Stmt} {t : Transform} {e : Expr}
    (ht : t ∈ s.transforms) (he : e ∈ t.args) : e ∈ s.expressions :=
  Stmt.mem_expressions.2 (.inr (.inr (.inr (.inr (.inr (.inr ⟨t, ht, he⟩))))))

theorem resolveStmt_eq (hmatched : p.Matched) {s : Stmt} (hs : p.HasStmt s) :
    resolveStmt p.overloads s = .ok (codedStmt (sharedNames p.funDefs) s) := by
  have hexpr : ∀ e ∈ s.expressions, ∀ x, Expr.Within x e → p.HasExpr x :=
    fun e he x hx => .inr ⟨s, hs, e, he, hx⟩
  have hcalls : ∀ e ∈ [s.target, s.init, s.rhs, s.lower, s.upper, s.cond],
      resolveCalls p.overloads e = .ok (resolvedExpr (sharedNames p.funDefs) e) := by
    intro e he
    apply resolveCalls_eq hmatched
    apply hexpr
    apply Stmt.mem_expressions.2
    rcases List.mem_cons.1 he with rfl | he
    · exact .inr (.inr (.inr (.inr (.inr (.inl rfl)))))
    · exact .inr (.inl he)
  have hexprs : ∀ es : List Expr, (∀ e ∈ es, e ∈ s.expressions) →
      resolveExprs p.overloads es = .ok (es.map (resolvedExpr (sharedNames p.funDefs))) :=
    fun es hes => resolveExprs_eq hmatched fun e he => hexpr e (hes e he)
  have htransform : ∀ t : Option Transform, (∀ t', t = some t' → t' ∈ s.transforms) →
      resolveTransform p.overloads t =
        .ok (t.map (resolvedTransform (sharedNames p.funDefs))) := by
    intro t ht
    apply resolveTransform_eq hmatched
    intro t' ht' e he
    exact hexpr e (Stmt.mem_expressions_of_transform (ht t' ht') he)
  unfold resolveStmt
  rw [resolveStatementName_eq hmatched hs, hcalls s.init (by simp), hcalls s.rhs (by simp),
    hcalls s.target (by simp), hcalls s.lower (by simp), hcalls s.upper (by simp),
    hcalls s.cond (by simp),
    hexprs s.readDims (by simp +contextual [Stmt.mem_expressions]),
    hexprs s.lhsIdx (by simp +contextual [Stmt.mem_expressions]),
    hexprs s.fnArgs (by simp +contextual [Stmt.mem_expressions]),
    hexprs s.declType.dims (by simp +contextual [Stmt.mem_expressions]),
    htransform s.readTransform (by simp +contextual [Stmt.transforms]),
    htransform s.checkTransform (by simp +contextual [Stmt.transforms])]
  rfl

/-! ### Programs -/

theorem rewrites_resolveStmt (hmatched : p.Matched) {ss : List Stmt} (hss : ∀ s ∈ ss, s ∈ p.stmts) :
    Stmt.rewrites (resolveStmt p.overloads) ss =
      .ok (ss.map (Stmt.mapNodes (codedStmt (sharedNames p.funDefs)))) :=
  Stmt.rewrites_all_pure fun s hs =>
    Stmt.rewrite_pure fun _ hx => resolveStmt_eq hmatched ⟨s, hss s hs, hx⟩

theorem Program.mem_stmts_of_body {f : FunDef} (hf : f ∈ p.funDefs) {s : Stmt} (hs : s ∈ f.body) :
    s ∈ p.stmts :=
  List.mem_append_right _ (List.mem_flatMap.2 ⟨f, hf, hs⟩)

/-- The functions of a program under their internal names, with their bodies resolved. -/
theorem mapM_rewrite_renamed (hmatched : p.Matched) :
    (p.funDefs.map (FunDef.renamed (sharedNames p.funDefs))).mapM
        (FunDef.rewrite (resolveStmt p.overloads)) =
      .ok (p.resolvedBy (codedStmt (sharedNames p.funDefs))).funDefs := by
  rw [List.mapM_map]
  apply mapM_pure_of_forall
  intro f hf
  rw [Function.comp_apply, FunDef.rewrite, FunDef.renamed_eq,
    rewrites_resolveStmt hmatched fun s hs => Program.mem_stmts_of_body hf hs]
  rfl

theorem mapM_resolveInput (hmatched : p.Matched) :
    p.inputVars.mapM (resolveInput p.overloads) =
      .ok (p.resolvedBy (codedStmt (sharedNames p.funDefs))).inputVars := by
  apply mapM_pure_of_forall
  intro input hinput
  rw [resolveInput, resolveExprs_eq hmatched
    fun e he x hx => .inl ⟨input, hinput, e, he, hx⟩]
  rfl

/-! ### Programs without overloads -/

theorem resolvedExpr_of_plain {shared : List Bytes} {e : Expr}
    (h : ∀ x, Expr.Within x e → x.isReference = true → shared.contains x.name = false) :
    resolvedExpr shared e = e := by
  apply Expr.mapNodes_eq_self
  intro x hx
  unfold resolvedNode
  split
  · rename_i href
    split
    · rfl
    · rw [internalName_of_not_shared (h x hx href)]
      cases x
      rfl
  · rfl

theorem map_resolvedExpr_nil (es : List Expr) : es.map (resolvedExpr []) = es := by
  have hmap : es.map (resolvedExpr []) = es.map id :=
    List.map_congr_left fun e _ => resolvedExpr_of_plain fun _ _ _ => rfl
  rw [hmap, List.map_id]

theorem resolvedExpr_nil (e : Expr) : resolvedExpr [] e = e :=
  resolvedExpr_of_plain fun _ _ _ => rfl

theorem resolvedSized_nil (type : SizedType) : resolvedSized [] type = type := by
  rw [resolvedSized, map_resolvedExpr_nil]

theorem resolvedTransform_nil (t : Option Transform) : t.map (resolvedTransform []) = t := by
  cases t with
  | none => rfl
  | some t =>
    rw [Option.map_some, resolvedTransform, map_resolvedExpr_nil]

theorem resolvedStatementName_nil (s : Stmt) : resolvedStatementName [] s = s.fnName := by
  unfold resolvedStatementName
  split
  · rfl
  · rename_i hname
    exact (userDefinedStatementName_eq_some.1 hname).2.2.2.2.symm

theorem codedStmt_nil (s : Stmt) : codedStmt [] s = s := by
  cases s
  simp only [codedStmt, resolvedStmt, resolvedStatementName_nil, resolvedExpr_nil,
    map_resolvedExpr_nil, resolvedSized_nil, resolvedTransform_nil]

theorem resolvedBy_codedStmt_nil (h : sharedNames p.funDefs = []) :
    p.resolvedBy (codedStmt (sharedNames p.funDefs)) = p := by
  have hstmts : ∀ ss : List Stmt, ss.map (Stmt.mapNodes (codedStmt [])) = ss := by
    intro ss
    have hmap : ss.map (Stmt.mapNodes (codedStmt [])) = ss.map id :=
      List.map_congr_left fun s _ => Stmt.mapNodes_eq_self fun x _ => codedStmt_nil x
    rw [hmap, List.map_id]
  unfold Program.resolvedBy
  rw [h]
  simp [hstmts, resolvedSized_nil, internalName]

/-- `resolve_overloads` on a program whose overloads can be told apart. -/
theorem resolveOverloads_eq (hmatched : p.Matched) (hapart : p.Distinguishable) :
    resolveOverloads p = .ok (p.resolvedBy (codedStmt (sharedNames p.funDefs))) := by
  unfold resolveOverloads
  rw [overloadTable_eq hapart]
  dsimp only [bind, Except.bind]
  split
  · rename_i hempty
    rw [List.isEmpty_iff, List.map_eq_nil_iff] at hempty
    rw [resolvedBy_codedStmt_nil hempty]
    rfl
  · have hinputs := mapM_resolveInput hmatched
    have hfuns := mapM_rewrite_renamed hmatched
    rw [← Program.overloads]
    rw [hinputs]
    dsimp only
    unfold Program.rewrite
    dsimp only
    rw [rewrites_resolveStmt hmatched (by simp +contextual [Program.stmts]),
      rewrites_resolveStmt hmatched (by simp +contextual [Program.stmts]),
      rewrites_resolveStmt hmatched (by simp +contextual [Program.stmts]),
      rewrites_resolveStmt hmatched (by simp +contextual [Program.stmts]), hfuns]
    rfl

end Sound

end Stanli.Mir
