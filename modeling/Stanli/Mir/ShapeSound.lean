import Stanli.Mir.ShapePasses

namespace Stanli.Mir

/-! ### Which programs stay well shaped

The shape pass sees neither the transform of a write nor a target that is still an s-expression, and
it reads names before they are unmangled. `ProgramCovered` says of the validated program that nothing
hides there, and `shaped_rewriteProgram` that this is exactly when the finalized one is well
shaped. -/

variable {R : Registry} {H : Host} {overloads : Overloads}

/-- What the shape pass does not see of a statement keeps the rules. -/
structure StmtCovered (R : Registry) (H : Host) (s : Stmt) : Prop where
  /-- The transform of a write, which the pass skips. -/
  write : ∀ t, s.writeTransform = some t → TransformShaped R (unmangleTransform t)
  /-- A target that is read from its s-expression after the pass. -/
  rebuilt : ∀ e, opaqueTarget H s = .ok (some e) → ExprShaped R (unmangle (stripEval e))
  /-- Calls under mangled names. -/
  target : opaqueTarget H s = .ok none → NamesKept R s.target
  operands : ∀ e ∈ s.operands, NamesKept R e
  read : ∀ t, s.readTransform = some t → ∀ a ∈ t.args, NamesKept R a
  check : ∀ t, s.checkTransform = some t → ∀ a ∈ t.args, NamesKept R a

structure ProgramCovered (R : Registry) (H : Host) (p : Program) : Prop where
  inputs : ∀ input ∈ p.inputVars, ∀ d ∈ input.2.dims, NamesKept R d
  stmts : ∀ s ∈ p.stmts, s.All (StmtCovered R H)

/-! ### One pass over a tree -/

theorem stmtRewrites_eq_ok {f : Stmt → Checked Stmt} {ss ss' : List Stmt}
    (h : Stmt.rewrites f ss = .ok ss') :
    List.Forall₂ (fun s s' => s.rewrite f = .ok s') ss ss' := by
  induction ss generalizing ss' with
  | nil =>
    obtain rfl : [] = ss' := Except.ok.inj h
    exact List.Forall₂.nil
  | cons s ss ih =>
    rw [Stmt.rewrites, bind_eq_ok_iff] at h
    obtain ⟨s₁, hs, h⟩ := h
    obtain ⟨ss₁, hss, h⟩ := bind_eq_ok_iff.1 h
    obtain rfl : s₁ :: ss₁ = ss' := Except.ok.inj h
    exact List.Forall₂.cons hs (ih hss)

/-- What a pass makes of a property, read off one statement: `P` after it is `Q` before it, for
statements with the property `V`. -/
def Transfers (f : Stmt → Checked Stmt) (V Q P : Stmt → Prop) : Prop :=
  ∀ s s', V s → f s = .ok s' → ∀ body : List Stmt, body.length = s.body.length →
    (Q s ↔ P { s' with body })

theorem Transfers.all {f : Stmt → Checked Stmt} {V Q P : Stmt → Prop} (ht : Transfers f V Q P)
    {s s' : Stmt} (hV : s.All V) (h : s.rewrite f = .ok s') : s.All Q ↔ s'.All P := by
  induction s using Stmt.induction generalizing s' with
  | step s ih =>
    rw [Stmt.rewrite_eq, bind_eq_ok_iff] at h
    obtain ⟨s₁, hs, h⟩ := h
    obtain ⟨body, hbody, h⟩ := bind_eq_ok_iff.1 h
    obtain rfl : { s₁ with body } = s' := Except.ok.inj h
    obtain ⟨hVs, hVbody⟩ := Stmt.all_iff.1 hV
    have hforall := stmtRewrites_eq_ok hbody
    rw [Stmt.all_iff, Stmt.all_iff]
    apply and_congr
    · exact ht s s₁ hVs hs body hforall.length_eq.symm
    · exact forall₂_mem_iff hforall fun c hc c' h' => ih c hc (hVbody c hc) h'

theorem bodies_of_rewrite {f : Stmt → Checked Stmt} {fns fns' : List FunDef}
    (h : fns.mapM (FunDef.rewrite f) = .ok fns') :
    List.Forall₂ (fun s s' => s.rewrite f = .ok s') (fns.flatMap FunDef.body)
      (fns'.flatMap FunDef.body) := by
  induction fns generalizing fns' with
  | nil =>
    obtain rfl : [] = fns' := Except.ok.inj h
    exact List.Forall₂.nil
  | cons fn fns ih =>
    rw [List.mapM_cons, bind_eq_ok_iff] at h
    obtain ⟨fn₁, hfn, h⟩ := h
    obtain ⟨fns₁, hfns, h⟩ := bind_eq_ok_iff.1 h
    obtain rfl : fn₁ :: fns₁ = fns' := Except.ok.inj h
    obtain ⟨body, hbody, hfn⟩ := bind_eq_ok_iff.1 hfn
    obtain rfl : { fn with body } = fn₁ := Except.ok.inj hfn
    rw [List.flatMap_cons, List.flatMap_cons]
    exact List.rel_append (stmtRewrites_eq_ok hbody) (ih hfns)

/-- A pass relates the sections of a program statement by statement. -/
theorem stmts_of_rewrite {f : Stmt → Checked Stmt} {p p' : Program} (h : p.rewrite f = .ok p') :
    p'.inputVars = p.inputVars ∧
      List.Forall₂ (fun s s' => s.rewrite f = .ok s') p.stmts p'.stmts := by
  obtain ⟨prepareData, h1, h⟩ := bind_eq_ok_iff.1 h
  obtain ⟨logProb, h2, h⟩ := bind_eq_ok_iff.1 h
  obtain ⟨generateQuantities, h3, h⟩ := bind_eq_ok_iff.1 h
  obtain ⟨transformInits, h4, h⟩ := bind_eq_ok_iff.1 h
  obtain ⟨funDefs, h5, h⟩ := bind_eq_ok_iff.1 h
  obtain rfl := Except.ok.inj h
  refine ⟨rfl, ?_⟩
  have h12 := List.rel_append (stmtRewrites_eq_ok h1) (stmtRewrites_eq_ok h2)
  have h123 := List.rel_append h12 (stmtRewrites_eq_ok h3)
  have h1234 := List.rel_append h123 (stmtRewrites_eq_ok h4)
  exact List.rel_append h1234 (bodies_of_rewrite h5)

theorem Transfers.program {f : Stmt → Checked Stmt} {V Q P : Stmt → Prop} (ht : Transfers f V Q P)
    {p p' : Program} (hV : ∀ s ∈ p.stmts, s.All V) (h : p.rewrite f = .ok p') :
    (∀ s ∈ p.stmts, s.All Q) ↔ ∀ s ∈ p'.stmts, s.All P :=
  forall₂_mem_iff (stmts_of_rewrite h).2 fun s hs _ h' => ht.all (hV s hs) h'

/-! ### The rules that only count -/

theorem validateSizedArity_congr {type type' : SizedType} (hbase : type.base = type'.base)
    (helem : type.elemBase = type'.elemBase) (hdims : type.dims.length = type'.dims.length) :
    validateSizedArity type = validateSizedArity type' := by
  unfold validateSizedArity requireDims
  rw [hbase, helem, hdims]

theorem validateTransformArity_congr {t t' : Transform} (hkind : t.kind = t'.kind)
    (hargs : t.args.length = t'.args.length) :
    validateTransformArity t = validateTransformArity t' := by
  unfold validateTransformArity
  rw [hkind, hargs]

theorem validateBody_congr {s s' : Stmt} (hkind : s.kind = s'.kind)
    (hbody : s.body.length = s'.body.length) : validateBody s = validateBody s' := by
  unfold validateBody
  rw [hkind, hbody]

/-- A statement's rules carry over part by part. -/
theorem stmtShaped_congr {s s' : Stmt}
    (htype : validateSizedArity s'.declType = validateSizedArity s.declType)
    (hoperands : (∀ e ∈ s.operands, ExprShaped R e) ↔ ∀ e ∈ s'.operands, ExprShaped R e)
    (htarget : ExprShaped R s.target ↔ ExprShaped R s'.target)
    (hindices : (∀ i ∈ s.lhsIdx, isIndex i = true) ↔ ∀ i ∈ s'.lhsIdx, isIndex i = true)
    (htransforms : (∀ t ∈ s.transforms, TransformShaped R t) ↔
      ∀ t ∈ s'.transforms, TransformShaped R t)
    (hkind : s'.kind = s.kind) (hbody : s'.body.length = s.body.length) :
    StmtShaped R s ↔ StmtShaped R s' := by
  have hrule : validateBody s' = validateBody s := validateBody_congr hkind hbody
  constructor
  · rintro ⟨h1, h2, h3, h4, h5, h6⟩
    exact ⟨htype.trans h1, hoperands.1 h2, htarget.1 h3, hindices.1 h4, htransforms.1 h5,
      hrule.trans h6⟩
  · rintro ⟨h1, h2, h3, h4, h5, h6⟩
    exact ⟨htype.symm.trans h1, hoperands.2 h2, htarget.2 h3, hindices.2 h4, htransforms.2 h5,
      hrule.symm.trans h6⟩

/-! ### Restoring unsized declarations -/

theorem restoreUnsizedNode_eq_ok {s s' : Stmt} (h : restoreUnsizedNode s = .ok s') :
    ∃ unsized, s' = { s with declType := { s.declType with unsized } } := by
  unfold restoreUnsizedNode at h
  split at h
  · simp only at h
    split at h
    · rename_i unsized _
      exact ⟨unsized, (Except.ok.inj h).symm⟩
    · split at h
      · cases h
      · obtain rfl := Except.ok.inj h
        exact ⟨s.declType.unsized, by cases s; rfl⟩
  · obtain rfl := Except.ok.inj h
    exact ⟨s.declType.unsized, by cases s; rfl⟩

theorem restore_transfers : Transfers restoreUnsizedNode (fun _ => True) (StmtShaped R)
    (StmtShaped R) := by
  intro s s' _ h body hbody
  obtain ⟨unsized, rfl⟩ := restoreUnsizedNode_eq_ok h
  exact stmtShaped_congr rfl Iff.rfl Iff.rfl Iff.rfl Iff.rfl rfl hbody

/-! ### Resolving overloads -/

theorem optional_resolve {t t' : Option Transform} (h : resolveTransform overloads t = .ok t') :
    (∀ x ∈ t.toList, TransformShaped R x) ↔ ∀ x ∈ t'.toList, TransformShaped R x := by
  cases t with
  | none =>
    obtain rfl : none = t' := Except.ok.inj h
    exact Iff.rfl
  | some t =>
    obtain ⟨args, hargs, h⟩ := bind_eq_ok_iff.1 h
    obtain rfl : some { t with args } = t' := Except.ok.inj h
    have harity : validateTransformArity { t with args } = validateTransformArity t :=
      validateTransformArity_congr rfl (resolveExprs_eq_ok hargs).length_eq.symm
    have hshaped := exprsShaped_resolve (R := R) hargs
    simp only [Option.toList_some, List.forall_mem_singleton]
    constructor
    · rintro ⟨ha, hs⟩
      exact ⟨harity.trans ha, hshaped.1 hs⟩
    · rintro ⟨ha, hs⟩
      exact ⟨harity.symm.trans ha, hshaped.2 hs⟩

theorem forall_mem_append_iff {α : Type} {p : α → Prop} {xs ys xs' ys' : List α}
    (hx : (∀ a ∈ xs, p a) ↔ ∀ a ∈ xs', p a) (hy : (∀ a ∈ ys, p a) ↔ ∀ a ∈ ys', p a) :
    (∀ a ∈ xs ++ ys, p a) ↔ ∀ a ∈ xs' ++ ys', p a := by
  rw [List.forall_mem_append, List.forall_mem_append, hx, hy]

theorem resolve_transfers : Transfers (resolveStmt overloads) (fun _ => True) (StmtShaped R)
    (StmtShaped R) := by
  intro s s' _ h body hbody
  obtain ⟨fnName, -, h⟩ := bind_eq_ok_iff.1 h
  obtain ⟨init, hinit, h⟩ := bind_eq_ok_iff.1 h
  obtain ⟨rhs, hrhs, h⟩ := bind_eq_ok_iff.1 h
  obtain ⟨target, htarget, h⟩ := bind_eq_ok_iff.1 h
  obtain ⟨lower, hlower, h⟩ := bind_eq_ok_iff.1 h
  obtain ⟨upper, hupper, h⟩ := bind_eq_ok_iff.1 h
  obtain ⟨cond, hcond, h⟩ := bind_eq_ok_iff.1 h
  obtain ⟨readDims, hread, h⟩ := bind_eq_ok_iff.1 h
  obtain ⟨lhsIdx, hlhs, h⟩ := bind_eq_ok_iff.1 h
  obtain ⟨fnArgs, hfn, h⟩ := bind_eq_ok_iff.1 h
  obtain ⟨dims, hdims, h⟩ := bind_eq_ok_iff.1 h
  obtain ⟨readTransform, hrt, h⟩ := bind_eq_ok_iff.1 h
  obtain ⟨checkTransform, hct, h⟩ := bind_eq_ok_iff.1 h
  obtain rfl := Except.ok.inj h
  have htype : validateSizedArity { s.declType with dims } = validateSizedArity s.declType :=
    validateSizedArity_congr rfl rfl (resolveExprs_eq_ok hdims).length_eq.symm
  have hfields : (∀ e ∈ [s.init, s.rhs, s.lower, s.upper, s.cond], ExprShaped R e) ↔
      ∀ e ∈ [init, rhs, lower, upper, cond], ExprShaped R e := by
    simp [exprShaped_resolveCalls hinit, exprShaped_resolveCalls hrhs, exprShaped_resolveCalls
      hlower, exprShaped_resolveCalls hupper, exprShaped_resolveCalls hcond]
  have hoperands : (∀ e ∈ s.operands, ExprShaped R e) ↔
      ∀ e ∈ dims ++ [init, rhs, lower, upper, cond] ++ readDims ++ lhsIdx ++ fnArgs,
        ExprShaped R e :=
    forall_mem_append_iff (forall_mem_append_iff (forall_mem_append_iff (forall_mem_append_iff
      (exprsShaped_resolve hdims) hfields) (exprsShaped_resolve hread)) (exprsShaped_resolve hlhs))
      (exprsShaped_resolve hfn)
  have hindices : (∀ i ∈ s.lhsIdx, isIndex i = true) ↔ ∀ i ∈ lhsIdx, isIndex i = true := by
    refine forall₂_mem_iff (resolveExprs_eq_ok hlhs) fun i _ i' hi => ?_
    rw [isIndex_resolveCalls hi]
  have htransforms : (∀ t ∈ s.transforms, TransformShaped R t) ↔
      ∀ t ∈ readTransform.toList ++ checkTransform.toList ++ s.writeTransform.toList,
        TransformShaped R t :=
    forall_mem_append_iff (forall_mem_append_iff (optional_resolve hrt) (optional_resolve hct))
      Iff.rfl
  exact stmtShaped_congr htype hoperands (exprShaped_resolveCalls htarget) hindices htransforms rfl
    hbody

/-! ### Unmangling and opaque targets -/

theorem unmangle_transfers : Transfers (fun s => .ok (unmangleStmt s)) (fun _ => True)
    (fun s => StmtShaped R (unmangleStmt s)) (StmtShaped R) := by
  intro s s' _ h body hbody
  obtain rfl := Except.ok.inj h
  exact stmtShaped_congr rfl Iff.rfl Iff.rfl Iff.rfl Iff.rfl rfl hbody

theorem transformShaped_unmangle {t : Transform} (h : TransformShaped R t) :
    TransformShaped R (unmangleTransform t) ↔ ∀ a ∈ t.args, NamesKept R a := by
  have hsame : validateTransformArity (unmangleTransform t) = validateTransformArity t :=
    validateTransformArity_congr rfl (List.length_map unmangle)
  have harity : validateTransformArity (unmangleTransform t) = .ok () := hsame.trans h.arity
  have hargs : (∀ a ∈ (unmangleTransform t).args, ExprShaped R a) ↔ ∀ a ∈ t.args, NamesKept R a :=
    List.forall_mem_map.trans (forall₂_congr fun a ha => exprShaped_unmangle (h.args a ha))
  exact ⟨fun h' => hargs.1 h'.args, fun h' => ⟨harity, hargs.2 h'⟩⟩

/-- An optional transform the shape pass has seen. -/
theorem optional_unmangle {t : Option Transform} (h : ∀ x, t = some x → TransformShaped R x) :
    (∀ x ∈ (t.map unmangleTransform).toList, TransformShaped R x) ↔
      ∀ x, t = some x → ∀ a ∈ x.args, NamesKept R a := by
  cases t with
  | none => simp
  | some t =>
    have ht := transformShaped_unmangle (h t rfl)
    simp [ht]

/-- The transform of a write, which it has not. -/
theorem write_unmangle {t : Option Transform} :
    (∀ x ∈ (t.map unmangleTransform).toList, TransformShaped R x) ↔
      ∀ x, t = some x → TransformShaped R (unmangleTransform x) := by
  cases t with
  | none => simp
  | some t =>
    simp

/-- Reading an opaque target gives the statement another kind, and leaves the rest alone. -/
theorem readJacobianNode_eq_ok {s s₁ : Stmt} (h : readJacobianNode H s = .ok s₁) :
    (opaqueTarget H s = .ok none ∧ s₁ = s) ∨
      ∃ e, opaqueTarget H s = .ok (some e) ∧ s.kind = .unsupported ∧
        s₁ = { s with kind := .targetPE, target := e } := by
  obtain ⟨target, htarget, h⟩ := bind_eq_ok_iff.1 h
  cases target with
  | none => exact Or.inl ⟨htarget, (Except.ok.inj h).symm⟩
  | some e =>
    refine Or.inr ⟨e, htarget, ?_, (Except.ok.inj h).symm⟩
    by_contra hkind
    rw [opaqueTarget, if_neg fun hc => hkind hc.1] at htarget
    cases htarget

/-- The parts of a statement that reading its target leaves alone, stripped and unmangled. -/
theorem covered_iff {s x : Stmt} (hV : StmtValidated R s)
    (hx : x.operands = s.operands.map fun e => unmangle (stripEval e))
    (htype : x.declType = unmangleSized { s.declType with dims := s.declType.dims.map stripEval })
    (hlhs : x.lhsIdx = s.lhsIdx.map fun e => unmangle (stripEval e))
    (htransforms : x.transforms = (s.readTransform.map unmangleTransform).toList ++
      (s.checkTransform.map unmangleTransform).toList ++
      (s.writeTransform.map unmangleTransform).toList)
    (hbody : validateBody x = .ok ())
    (htarget : ExprShaped R x.target ↔
      (∀ e, opaqueTarget H s = .ok (some e) → ExprShaped R (unmangle (stripEval e))) ∧
        (opaqueTarget H s = .ok none → NamesKept R s.target)) :
    StmtCovered R H s ↔ StmtShaped R x := by
  have hoperands : (∀ e ∈ x.operands, ExprShaped R e) ↔ ∀ e ∈ s.operands, NamesKept R e := by
    rw [hx, List.forall_mem_map]
    exact forall₂_congr fun e he => exprShaped_unmangle_stripEval (hV.operands e he)
  have hsized : validateSizedArity x.declType = .ok () := by
    rw [← hV.type]
    apply validateSizedArity_congr
    · rw [htype]
      rfl
    · rw [htype]
      rfl
    · simp only [htype, unmangleSized, List.length_map]
  have hindices : ∀ i ∈ x.lhsIdx, isIndex i = true := by
    rw [hlhs, List.forall_mem_map]
    exact fun i hi => isIndex_unmangle (isIndex_stripEval (hV.indices i hi))
  have hall : (∀ t ∈ x.transforms, TransformShaped R t) ↔
      ((∀ t, s.readTransform = some t → ∀ a ∈ t.args, NamesKept R a) ∧
        ∀ t, s.checkTransform = some t → ∀ a ∈ t.args, NamesKept R a) ∧
        ∀ t, s.writeTransform = some t → TransformShaped R (unmangleTransform t) := by
    rw [htransforms, List.forall_mem_append, List.forall_mem_append, optional_unmangle hV.read,
      optional_unmangle hV.check, write_unmangle]
  constructor
  · rintro ⟨hwrite, hrebuilt, hkept, hops, hread, hcheck⟩
    exact ⟨hsized, hoperands.2 hops, htarget.2 ⟨hrebuilt, hkept⟩, hindices,
      hall.2 ⟨⟨hread, hcheck⟩, hwrite⟩, hbody⟩
  · rintro ⟨-, hops, htgt, -, htrans, -⟩
    obtain ⟨⟨hread, hcheck⟩, hwrite⟩ := hall.1 htrans
    obtain ⟨hrebuilt, hkept⟩ := htarget.1 htgt
    exact ⟨hwrite, hrebuilt, hkept, hoperands.1 hops, hread, hcheck⟩

theorem operands_rewritten (s : Stmt) (body : List Stmt) :
    (unmangleStmt { stripEvalStmt s with body }).operands
      = s.operands.map fun e => unmangle (stripEval e) := by
  simp only [Stmt.operands, unmangleStmt, stripEvalStmt, unmangleSized, List.map_append,
    List.map_map, List.map_cons, List.map_nil, Function.comp_def]

theorem readOpaque_transfers : Transfers (readOpaqueNode H) (StmtValidated R) (StmtCovered R H)
    (fun s => StmtShaped R (unmangleStmt s)) := by
  intro s s' hV h body hbody
  obtain ⟨s₁, hs₁, h⟩ := bind_eq_ok_iff.1 h
  obtain rfl : stripEvalStmt s₁ = s' := Except.ok.inj h
  rcases readJacobianNode_eq_ok hs₁ with ⟨hnone, rfl⟩ | ⟨e, hsome, hkind, rfl⟩
  · apply covered_iff hV (operands_rewritten _ body) rfl _ rfl
    · rw [← hV.body]
      apply validateBody_congr
      · rfl
      · exact hbody
    · rw [hnone]
      have htarget := exprShaped_unmangle_stripEval hV.target
      constructor
      · intro ht
        exact ⟨fun e he => absurd (Except.ok.inj he) (by simp), fun _ => htarget.1 ht⟩
      · rintro ⟨-, ht⟩
        exact htarget.2 (ht rfl)
    · exact List.map_map
  · have hops := operands_rewritten { s with kind := .targetPE, target := e } body
    apply covered_iff hV hops rfl _ rfl
    · -- both kinds of statement have no body
      have hrule := hV.body
      rw [validateBody, hkind] at hrule
      rw [validateBody]
      change (if body.length ≠ 0 then malformed (ascii "statement body") else .ok ()) = _
      rw [hbody]
      exact hrule
    · rw [hsome]
      constructor
      · intro ht
        refine ⟨fun e' he' => ?_, fun hc => absurd (Except.ok.inj hc) (by simp)⟩
        obtain rfl := Option.some.inj (Except.ok.inj he')
        exact ht
      · rintro ⟨ht, -⟩
        exact ht e rfl
    · exact List.map_map

/-! ### Programs -/

/-- A pass over the statements says of a program what it says of each of them. -/
theorem Transfers.shaped {f : Stmt → Checked Stmt}
    (ht : Transfers f (fun _ => True) (StmtShaped R) (StmtShaped R)) {p q : Program}
    (h : p.rewrite f = .ok q) : ProgramShaped R p ↔ ProgramShaped R q := by
  have hstmts := ht.program (fun s _ x _ => trivial) h
  have hinputs := (stmts_of_rewrite h).1
  constructor
  · rintro ⟨h1, h2⟩
    exact ⟨hinputs ▸ h1, hstmts.1 h2⟩
  · rintro ⟨h1, h2⟩
    exact ⟨hinputs ▸ h1, hstmts.2 h2⟩

theorem inputs_resolve {inputs inputs' : List (Bytes × SizedType)}
    (h : inputs.mapM (resolveInput overloads) = .ok inputs') :
    (∀ input ∈ inputs, SizedShaped R input.2) ↔ ∀ input ∈ inputs', SizedShaped R input.2 := by
  induction inputs generalizing inputs' with
  | nil =>
    obtain rfl : [] = inputs' := Except.ok.inj h
    exact Iff.rfl
  | cons input inputs ih =>
    rw [List.mapM_cons, bind_eq_ok_iff] at h
    obtain ⟨input₁, hinput, h⟩ := h
    obtain ⟨inputs₁, hinputs, h⟩ := bind_eq_ok_iff.1 h
    obtain rfl : input₁ :: inputs₁ = inputs' := Except.ok.inj h
    obtain ⟨dims, hdims, hinput⟩ := bind_eq_ok_iff.1 hinput
    obtain rfl := Except.ok.inj hinput
    have harity : validateSizedArity { input.2 with dims } = validateSizedArity input.2 :=
      validateSizedArity_congr rfl rfl (resolveExprs_eq_ok hdims).length_eq.symm
    have hshaped := exprsShaped_resolve (R := R) hdims
    rw [List.forall_mem_cons, List.forall_mem_cons, ih hinputs]
    apply and_congr_left
    intro _
    constructor
    · rintro ⟨ha, hd⟩
      exact ⟨harity.trans ha, hshaped.1 hd⟩
    · rintro ⟨ha, hd⟩
      exact ⟨harity.symm.trans ha, hshaped.2 hd⟩

/-- Renaming functions leaves their bodies. -/
theorem stmts_renamed (shared : List Bytes) (p : Program) :
    { p with funDefs := p.funDefs.map (FunDef.renamed shared) }.stmts = p.stmts := by
  have hbody : ∀ f : FunDef, (f.renamed shared).body = f.body := by
    intro f
    rw [FunDef.renamed]
    split <;> rfl
  simp only [Program.stmts, List.flatMap_map, hbody]

theorem shaped_resolveOverloads {p q : Program} (h : resolveOverloads p = .ok q) :
    ProgramShaped R p ↔ ProgramShaped R q := by
  obtain ⟨overloads, -, h⟩ := bind_eq_ok_iff.1 h
  split at h
  · obtain rfl := Except.ok.inj h
    exact Iff.rfl
  · obtain ⟨inputVars, hinputs, h⟩ := bind_eq_ok_iff.1 h
    rw [← resolve_transfers.shaped h]
    have hstmts := stmts_renamed (sharedNames p.funDefs) p
    constructor
    · rintro ⟨h1, h2⟩
      exact ⟨(inputs_resolve hinputs).1 h1, hstmts ▸ h2⟩
    · rintro ⟨h1, h2⟩
      exact ⟨(inputs_resolve hinputs).2 h1, hstmts ▸ h2⟩

theorem stmts_unmangleDecls (p : Program) : (unmangleDecls p).stmts = p.stmts := by
  simp only [Program.stmts, unmangleDecls, List.flatMap_map]

theorem sizedShaped_unmangle {type : SizedType} (h : SizedShaped R type) :
    SizedShaped R (unmangleSized type) ↔ ∀ d ∈ type.dims, NamesKept R d := by
  have hsame : validateSizedArity (unmangleSized type) = validateSizedArity type :=
    validateSizedArity_congr rfl rfl (List.length_map unmangle)
  have hdims : (∀ d ∈ (unmangleSized type).dims, ExprShaped R d) ↔
      ∀ d ∈ type.dims, NamesKept R d :=
    List.forall_mem_map.trans (forall₂_congr fun d hd => exprShaped_unmangle (h.dims d hd))
  exact ⟨fun h' => hdims.1 h'.dims, fun h' => ⟨hsame.trans h.arity, hdims.2 h'⟩⟩

/-- Unmangling, from the statements whose targets have been read. -/
theorem shaped_unmangleProgram {p q : Program}
    (hinputs : ∀ input ∈ p.inputVars, SizedShaped R input.2) (h : unmangleProgram p = .ok q) :
    ((∀ input ∈ p.inputVars, ∀ d ∈ input.2.dims, NamesKept R d) ∧
      ∀ s ∈ p.stmts, s.All fun s => StmtShaped R (unmangleStmt s)) ↔ ProgramShaped R q := by
  have hpass : Transfers (fun s => .ok (unmangleStmt s)) (fun _ => True)
      (fun s => StmtShaped R (unmangleStmt s)) (StmtShaped R) := unmangle_transfers
  have hstmts := hpass.program (fun s _ x _ => trivial) h
  rw [stmts_unmangleDecls] at hstmts
  have hin : (∀ input ∈ q.inputVars, SizedShaped R input.2) ↔
      ∀ input ∈ p.inputVars, ∀ d ∈ input.2.dims, NamesKept R d := by
    rw [(stmts_of_rewrite h).1]
    exact List.forall_mem_map.trans
      (forall₂_congr fun input hi => sizedShaped_unmangle (hinputs input hi))
  constructor
  · rintro ⟨h1, h2⟩
    exact ⟨hin.2 h1, hstmts.1 h2⟩
  · rintro ⟨h1, h2⟩
    exact ⟨hin.1 h1, hstmts.2 h2⟩

/-- A validated program is finalized to a well-shaped one exactly when nothing hides where the shape
pass does not look. -/
theorem shaped_rewriteProgram {p q : Program} (hV : ProgramValidated R p)
    (h : rewriteProgram H p = .ok q) : ProgramCovered R H p ↔ ProgramShaped R q := by
  obtain ⟨p₁, h1, h⟩ := bind_eq_ok_iff.1 h
  obtain ⟨p₂, h2, h⟩ := bind_eq_ok_iff.1 h
  obtain ⟨p₃, h3, h⟩ := bind_eq_ok_iff.1 h
  rw [← shaped_resolveOverloads h, ← restore_transfers.shaped h3]
  have hin := (stmts_of_rewrite h1).1
  rw [← shaped_unmangleProgram (hin ▸ hV.inputs) h2, hin,
    ← readOpaque_transfers.program hV.stmts h1]
  exact ⟨fun h => ⟨h.inputs, h.stmts⟩, fun h => ⟨h.1, h.2⟩⟩

end Stanli.Mir
