import Stanli.Mir.OverloadsSound

namespace Stanli.Mir

section Exact

variable {p : Program}

/-! ### Names apart -/

theorem contains_sharedNames_of_sublist {fns : List FunDef} {f g : FunDef}
    (hsub : [f, g].Sublist fns) (hname : f.name = g.name) :
    (sharedNames fns).contains f.name = true := by
  apply List.contains_iff_mem.2
  apply mem_sharedNames.2
  have hfilter : [f, g].Sublist (fns.filter fun f' => f'.name == f.name) := by
    have := hsub.filter fun f' => f'.name == f.name
    simpa [hname] using this
  exact hfilter.length_le

/-- The internal names are distinct exactly when the definitions can be told apart and none has the
name that another one gets with its signature. -/
theorem nodup_internalName_iff :
    (p.resolved.funDefs.map FunDef.name).Nodup ↔ p.Distinguishable ∧ p.NamesApart := by
  have hnames : p.resolved.funDefs.map FunDef.name =
      p.funDefs.map fun f => internalName (sharedNames p.funDefs) f.name f.argViews := by
    simp [Program.resolved, Program.resolvedBy, Function.comp_def]
  rw [hnames, List.Nodup, List.pairwise_map]
  constructor
  · intro h
    constructor
    · apply h.imp
      intro f g hne hname hviews
      exact hne (by rw [hname, hviews])
    · apply h.imp
      intro f g hne _
      exact hne
  · rintro ⟨hviews, hapart⟩
    apply List.pairwise_iff_forall_sublist.2
    intro f g hsub heq
    by_cases hname : f.name = g.name
    · apply List.pairwise_iff_forall_sublist.1 hviews hsub hname
      rw [← hname] at heq
      exact internalName_injective _ (contains_sharedNames_of_sublist hsub hname) heq
    · exact List.pairwise_iff_forall_sublist.1 hapart hsub hname heq

/-- A parenthesized signature meets no name without a parenthesis. -/
theorem Program.NamesApart.of_plain_names (h : ∀ f ∈ p.funDefs, 40 ∉ f.name) : p.NamesApart := by
  have htake : ∀ f ∈ p.funDefs,
      (internalName (sharedNames p.funDefs) f.name f.argViews).takeWhile (fun c => c != 40) =
        f.name := by
    intro f hf
    have hall : ∀ c ∈ f.name, (c != 40) = true := by
      intro c hc
      have hne : c ≠ 40 := by
        rintro rfl
        exact h f hf hc
      simpa using hne
    unfold internalName
    split
    · rw [List.takeWhile_append_of_pos hall]
      simp [signature, ascii]
    · exact List.takeWhile_eq_self_iff.2 hall
  apply List.pairwise_iff_forall_sublist.2
  intro f g hsub hname heq
  have hf : f ∈ p.funDefs := hsub.subset (by simp)
  have hg : g ∈ p.funDefs := hsub.subset (by simp)
  exact hname (by rw [← htake f hf, heq, htake g hg])

/-! ### The references of the resolved program -/

theorem Program.stmts_resolvedBy (g : Stmt → Stmt) :
    (p.resolvedBy g).stmts = p.stmts.map (Stmt.mapNodes g) := by
  simp only [Program.stmts, Program.resolvedBy, List.map_append, List.map_flatMap,
    List.flatMap_map]

theorem Program.HasStmt.of_resolvedBy {g : Stmt → Stmt} {s' : Stmt}
    (h : (p.resolvedBy g).HasStmt s') : ∃ s, p.HasStmt s ∧ s' = s.mapNodes g := by
  obtain ⟨r, hr, hwithin⟩ := h
  rw [Program.stmts_resolvedBy] at hr
  obtain ⟨root, hroot, rfl⟩ := List.mem_map.1 hr
  obtain ⟨s, hs, rfl⟩ := hwithin.of_mapNodes
  exact ⟨s, ⟨root, hroot, hs⟩, rfl⟩

theorem expressions_resolvedStmt (shared : List Bytes) (s : Stmt) (body : List Stmt) :
    Stmt.expressions { resolvedStmt shared s with body } =
      s.expressions.map (resolvedExpr shared) := by
  obtain ⟨kind, declId, declType, declDataOnly, hasInit, init, readTransform, readDims, lhs, lhsIdx,
    rhs, target, fnName, fnArgs, checkTransform, checkVarName, writeTransform, loopvar, lower, upper,
    cond, body', raw⟩ := s
  cases readTransform <;> cases checkTransform <;> cases writeTransform <;>
    simp [Stmt.expressions, Stmt.operands, Stmt.transforms, resolvedStmt, resolvedSized,
      resolvedTransform]

theorem Program.HasExpr.of_resolved {x' : Expr} (h : p.resolved.HasExpr x') :
    ∃ x, p.HasExpr x ∧ x' = resolvedExpr (sharedNames p.funDefs) x := by
  have hwithin : ∀ e, Expr.Within x' (resolvedExpr (sharedNames p.funDefs) e) →
      ∃ x, Expr.Within x e ∧ x' = resolvedExpr (sharedNames p.funDefs) x :=
    fun e he => he.of_mapNodes (resolvedNode_args _)
  rcases h with ⟨input, hinput, e, he, hx⟩ | ⟨s', hs', e, he, hx⟩
  · obtain ⟨input, hinput', rfl⟩ := List.mem_map.1 hinput
    obtain ⟨e, he', rfl⟩ := List.mem_map.1 he
    obtain ⟨x, hx', rfl⟩ := hwithin e hx
    exact ⟨x, .inl ⟨input, hinput', e, he', hx'⟩, rfl⟩
  · obtain ⟨s, hs, rfl⟩ := Program.HasStmt.of_resolvedBy hs'
    rw [Stmt.mapNodes_eq, expressions_resolvedStmt] at he
    obtain ⟨e, he', rfl⟩ := List.mem_map.1 he
    obtain ⟨x, hx', rfl⟩ := hwithin e hx
    exact ⟨x, .inr ⟨s, hs, e, he', hx'⟩, rfl⟩

/-- A reference of the resolved program is a renamed reference. -/
theorem Program.RefersTo.of_resolved {name' : Bytes} {views : List UnsizedView}
    (h : p.resolved.RefersTo name' views) :
    ∃ name, p.RefersTo name views ∧ name' = internalName (sharedNames p.funDefs) name views := by
  cases h with
  | expr hx href hviews =>
    obtain ⟨x, hx', rfl⟩ := hx.of_resolved
    rw [isReference_resolvedExpr] at href
    rw [referenceViews_resolvedExpr] at hviews
    exact ⟨x.name, .expr hx' href hviews, resolvedExpr_name _ href hviews⟩
  | stmt hs hname =>
    obtain ⟨s, hs', rfl⟩ := Program.HasStmt.of_resolvedBy hs
    rw [Stmt.mapNodes_eq] at hname ⊢
    change userDefinedStatementName (resolvedStatementName _ s) = _ at hname
    change ∃ name, p.RefersTo name ((s.fnArgs.map (resolvedExpr _)).map Expr.unsized) ∧ _ =
      internalName _ name ((s.fnArgs.map (resolvedExpr _)).map Expr.unsized)
    rw [map_resolvedExpr_unsized]
    unfold resolvedStatementName at hname
    cases hold : userDefinedStatementName s.fnName with
    | none =>
      rw [hold] at hname
      dsimp only at hname
      rw [hold] at hname
      cases hname
    | some parts =>
      obtain ⟨opened, name, rest⟩ := parts
      rw [hold] at hname
      dsimp only at hname
      rw [userDefinedStatementName_resolved hold] at hname
      cases hname
      exact ⟨name, .stmt hs' hold, rfl⟩

/-! ### The definitions of the resolved program -/

theorem filter_eq_singleton {α β : Type} {as : List α} {key : α → β} {q : α → Bool} {a : α}
    (hnodup : (as.map key).Nodup) (ha : a ∈ as) (hq : q a = true)
    (hkey : ∀ b ∈ as, q b = true → key b = key a) : as.filter q = [a] := by
  have hmem : a ∈ as.filter q := List.mem_filter.2 ⟨ha, hq⟩
  have hall : ∀ b ∈ as.filter q, b = a := by
    intro b hb
    obtain ⟨hb, hqb⟩ := List.mem_filter.1 hb
    exact List.inj_on_of_nodup_map hnodup hb ha (hkey b hb hqb)
  have hle : (as.filter q).length ≤ 1 := by
    have hfilter : (as.filter q).Nodup := (List.Nodup.of_map key hnodup).filter q
    rw [List.eq_replicate_of_mem hall] at hfilter
    exact List.nodup_replicate.1 hfilter
  rw [List.eq_replicate_of_mem hall, Nat.le_antisymm hle (List.length_pos_of_mem hmem)]
  rfl

/-- What a reference matches, the renamed reference matches under its internal name. -/
theorem Program.Matches.resolved (hnodup : (p.resolved.funDefs.map FunDef.name).Nodup)
    {name : Bytes} {views : List UnsizedView} (h : p.Matches name views) :
    p.resolved.Matches (internalName (sharedNames p.funDefs) name views) views := by
  obtain ⟨f, hfilter⟩ := h
  have hmem : f ∈ p.funDefs.filter (fun f => f.name == name && decide (f.argViews = views)) := by
    rw [hfilter]
    exact List.mem_singleton.2 rfl
  obtain ⟨hf, hbool⟩ := List.mem_filter.1 hmem
  rw [Bool.and_eq_true, beq_iff_eq, decide_eq_true_iff] at hbool
  obtain ⟨rfl, rfl⟩ := hbool
  refine ⟨_, filter_eq_singleton hnodup (List.mem_map.2 ⟨f, hf, rfl⟩) ?_ ?_⟩
  · simp
  · intro g _ hg
    rw [Bool.and_eq_true, beq_iff_eq] at hg
    exact hg.1

/-! ### Transforms of writes -/

theorem signature_ne_nil (views : List UnsizedView) : signature views ≠ [] := by
  exact List.append_ne_nil_of_right_ne_nil _ (by decide)

/-- What a write's transform refers to is renamed by nobody, so the two programs agree exactly when no
such transform refers to an overload. -/
theorem resolvedBy_codedStmt_iff (hmatched : p.Matched) :
    p.resolvedBy (codedStmt (sharedNames p.funDefs)) = p.resolved ↔ p.WritesPlain := by
  constructor
  · intro h s hs t ht e he x hx href
    obtain ⟨root, hroot, hwithin⟩ := hs
    have hstmts := congrArg Program.stmts h
    rw [Program.resolved, Program.stmts_resolvedBy, Program.stmts_resolvedBy] at hstmts
    have hnode := Stmt.mapNodes_congr_within hwithin (List.map_inj_left.1 hstmts root hroot)
    rw [Stmt.mapNodes_eq, Stmt.mapNodes_eq] at hnode
    have hwrite : s.writeTransform =
        s.writeTransform.map (resolvedTransform (sharedNames p.funDefs)) :=
      congrArg Stmt.writeTransform hnode
    rw [ht, Option.map_some, Option.some.injEq] at hwrite
    have hargs : t.args.map (resolvedExpr (sharedNames p.funDefs)) = t.args :=
      (congrArg Transform.args hwrite).symm
    have hsame : resolvedExpr (sharedNames p.funDefs) x = x :=
      Expr.mapNodes_eq_self_of_within (resolvedNode_args _) hx
        (List.map_inj_left.1 (hargs.trans (List.map_id _).symm) e he)
    have htransform : t ∈ s.transforms := by simp [Stmt.transforms, ht]
    obtain ⟨views, hviews⟩ := hmatched.typed x
      (.inr ⟨s, ⟨root, hroot, hwithin⟩, e, Stmt.mem_expressions_of_transform htransform he, hx⟩) href
    have hname := resolvedExpr_name (sharedNames p.funDefs) href hviews
    rw [hsame] at hname
    by_contra hshared
    rw [Bool.not_eq_false] at hshared
    rw [internalName_of_shared hshared, List.self_eq_append_right] at hname
    exact signature_ne_nil views hname
  · intro h
    have hstmt : ∀ s, p.HasStmt s →
        codedStmt (sharedNames p.funDefs) s = resolvedStmt (sharedNames p.funDefs) s := by
      intro s hs
      have hwrite : s.writeTransform.map (resolvedTransform (sharedNames p.funDefs)) =
          s.writeTransform := by
        cases ht : s.writeTransform with
        | none => rfl
        | some t =>
          have hargs : t.args.map (resolvedExpr (sharedNames p.funDefs)) = t.args.map id :=
            List.map_congr_left fun e he => resolvedExpr_of_plain (h s hs t ht e he)
          rw [Option.map_some, resolvedTransform, hargs, List.map_id]
      rw [codedStmt, resolvedStmt, hwrite]
    have hstmts : ∀ ss : List Stmt, (∀ s ∈ ss, s ∈ p.stmts) →
        ss.map (Stmt.mapNodes (codedStmt (sharedNames p.funDefs))) =
          ss.map (Stmt.mapNodes (resolvedStmt (sharedNames p.funDefs))) := by
      intro ss hss
      apply List.map_congr_left
      intro s hs
      exact Stmt.mapNodes_congr fun x hx => hstmt x ⟨s, hss s hs, hx⟩
    have hfuns : (p.resolvedBy (codedStmt (sharedNames p.funDefs))).funDefs = p.resolved.funDefs := by
      apply List.map_congr_left
      intro f hf
      rw [hstmts f.body fun s hs => Program.mem_stmts_of_body hf hs]
    unfold Program.resolved Program.resolvedBy at hfuns ⊢
    dsimp only at hfuns ⊢
    rw [hstmts p.prepareData (by simp +contextual [Program.stmts]),
      hstmts p.logProb (by simp +contextual [Program.stmts]),
      hstmts p.generateQuantities (by simp +contextual [Program.stmts]),
      hstmts p.transformInits (by simp +contextual [Program.stmts]), hfuns]

/-- Overload resolution is exact on exactly the programs whose definitions can be told apart, whose
internal names do not meet, and whose write transforms refer to no overload. -/
theorem resolveOverloads_exact_iff (hmatched : p.Matched) :
    (∃ p', resolveOverloads p = .ok p' ∧ OverloadsExact p p') ↔
      p.Distinguishable ∧ p.NamesApart ∧ p.WritesPlain := by
  constructor
  · rintro ⟨p', hresolve, hexact⟩
    have hdistinct := hexact.distinct
    rw [hexact.renamed] at hdistinct
    obtain ⟨hviews, hapart⟩ := nodup_internalName_iff.1 hdistinct
    rw [resolveOverloads_eq hmatched hviews, Except.ok.injEq] at hresolve
    exact ⟨hviews, hapart,
      (resolvedBy_codedStmt_iff hmatched).1 (hresolve.trans hexact.renamed)⟩
  · rintro ⟨hviews, hapart, hplain⟩
    have hdistinct := nodup_internalName_iff.2 ⟨hviews, hapart⟩
    refine ⟨p.resolved, ?_, hdistinct, ?_, rfl⟩
    · rw [resolveOverloads_eq hmatched hviews, (resolvedBy_codedStmt_iff hmatched).2 hplain]
    · intro name' views href
      obtain ⟨name, hold, rfl⟩ := href.of_resolved
      exact (hmatched.refers name views hold).resolved hdistinct

end Exact

/-! ### Two overloads of one name -/

/-- A call of `f` at an integer. -/
def callF : Expr :=
  { kind := .funApp, name := ascii "f", fnLib := .userDefined,
    args := [{ kind := .litInt, unsized := { leaf := .int } }] }

/-- `f` at an integer and at a real, and one statement. -/
def overloadedF (s : Stmt) : Program :=
  { logProb := [s],
    funDefs := [{ name := ascii "f", argViews := [{ leaf := .int }] },
      { name := ascii "f", argViews := [{ leaf := .real }] }] }

/-- `target += f(1);` -/
def targetF : Stmt := { kind := .targetPE, target := callF }

/-- A write whose transform calls `f`. -/
def writeF : Stmt := { writeTransform := some { kind := .lower, args := [callF] } }

theorem Expr.Within.of_leaf {x e : Expr} (h : Expr.Within x e) (hargs : e.args = []) : x = e := by
  cases h with
  | refl => rfl
  | arg ha _ =>
    rw [hargs] at ha
    cases ha

theorem within_callF {x : Expr} (h : Expr.Within x callF) (href : x.isReference = true) :
    x = callF := by
  cases h with
  | refl => rfl
  | arg ha hx =>
    rw [List.mem_singleton.1 ha] at hx
    rw [hx.of_leaf rfl] at href
    exact absurd href (by decide)

theorem hasStmt_overloadedF {s s' : Stmt} (hbody : s.body = []) (h : (overloadedF s).HasStmt s') :
    s' = s := by
  obtain ⟨root, hroot, hwithin⟩ := h
  have heq : root = s := by simpa [overloadedF, Program.stmts] using hroot
  subst heq
  cases hwithin with
  | refl => rfl
  | child hc _ =>
    rw [hbody] at hc
    cases hc

/-- The references of the program are the calls of `f`. -/
theorem overloadedF_matched {s : Stmt} (hbody : s.body = [])
    (hname : userDefinedStatementName s.fnName = none)
    (hexprs : ∀ e ∈ s.expressions, e = callF ∨ e = {}) : (overloadedF s).Matched := by
  have hexpr : ∀ x, (overloadedF s).HasExpr x → x.isReference = true → x = callF := by
    rintro x (⟨input, hinput, _⟩ | ⟨s', hs', e, he, hx⟩) href
    · cases hinput
    · rw [hasStmt_overloadedF hbody hs'] at he
      rcases hexprs e he with rfl | rfl
      · exact within_callF hx href
      · rw [hx.of_leaf rfl] at href
        exact absurd href (by decide)
  constructor
  · intro x hx href
    rw [hexpr x hx href]
    exact ⟨_, rfl⟩
  · intro name views href
    cases href with
    | expr hx href hviews =>
      rw [hexpr _ hx href] at hviews ⊢
      cases hviews
      exact ⟨{ name := ascii "f", argViews := [{ leaf := .int }] }, rfl⟩
    | stmt hs hfn =>
      rw [hasStmt_overloadedF hbody hs, hname] at hfn
      cases hfn

theorem expressions_targetF : ∀ e ∈ targetF.expressions, e = callF ∨ e = {} := by
  simp [targetF, Stmt.expressions, Stmt.operands, Stmt.transforms]

theorem expressions_writeF : ∀ e ∈ writeF.expressions, e = callF ∨ e = {} := by
  simp [writeF, Stmt.expressions, Stmt.operands, Stmt.transforms]

theorem resolveOverloads_exact_targetF :
    ∃ p', resolveOverloads (overloadedF targetF) = .ok p' ∧
      OverloadsExact (overloadedF targetF) p' := by
  apply (resolveOverloads_exact_iff
    (overloadedF_matched rfl (by decide) expressions_targetF)).2
  refine ⟨?_, ?_, ?_⟩
  · unfold Program.Distinguishable
    decide
  · apply Program.NamesApart.of_plain_names
    decide
  · intro s hs t ht
    rw [hasStmt_overloadedF rfl hs] at ht
    cases ht

/-- The call in the transform of the write still refers to `f`, and no function has this name. -/
theorem not_overloadsExact_writeF :
    (overloadedF writeF).Matched ∧
      ¬ ∃ p', resolveOverloads (overloadedF writeF) = .ok p' ∧
        OverloadsExact (overloadedF writeF) p' := by
  have hmatched := overloadedF_matched rfl (by decide) expressions_writeF
  refine ⟨hmatched, ?_⟩
  rintro ⟨p', hresolve, hexact⟩
  rw [resolveOverloads_eq hmatched (by unfold Program.Distinguishable; decide)] at hresolve
  cases hresolve
  have href : ((overloadedF writeF).resolvedBy
      (codedStmt (sharedNames (overloadedF writeF).funDefs))).RefersTo (ascii "f")
        [{ leaf := .int }] := by
    apply Program.RefersTo.expr (x := callF)
    · exact .inr ⟨_, ⟨_, List.mem_singleton.2 rfl, .refl _⟩, callF,
        Stmt.mem_expressions_of_transform (List.mem_singleton.2 rfl) (List.mem_singleton.2 rfl),
        .refl _⟩
    · decide
    · rfl
  obtain ⟨f, hf⟩ := hexact.exact_ _ _ href
  have hnone : [] = [f] := hf
  cases hnone

end Stanli.Mir
