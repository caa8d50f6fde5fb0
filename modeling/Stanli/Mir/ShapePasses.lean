import Stanli.Mir.Bindings
import Stanli.Mir.ShapeRules

namespace Stanli.Mir

/-! ### Shapes through finalization

What the passes behind the shape pass do to a well-shaped tree. Stripping `eval` and resolving
overloads keep every rule; unmangling keeps it unless the shorter name has a rule of its own, and
reading an opaque target brings in an expression that no rule has seen. -/

variable {R : Registry} {H : Host} {overloads : Overloads}

/-! ### Names -/

/-- Every call under a mangled name still has the arguments its unmangled name asks for. -/
def NamesKept (R : Registry) (e : Expr) : Prop :=
  e.All fun x => x.kind = .funApp → kMangle.isPrefixOf x.name = true →
    validateArity R (unmangleNode x) = .ok ()

theorem namesKept_iff {e : Expr} :
    NamesKept R e ↔ (e.kind = .funApp → kMangle.isPrefixOf e.name = true →
      validateArity R (unmangleNode e) = .ok ()) ∧ ∀ a ∈ e.args, NamesKept R a :=
  Expr.all_iff

theorem unmangleName_of_not_mangled {name : Bytes} (h : ¬ kMangle.isPrefixOf name = true) :
    unmangleName name = name := if_neg h

theorem isIndex_iff {e : Expr} : isIndex e = true ↔ e.kind = .funApp ∧ e.fnLib = .stanLib ∧
    named e ["IndexAll", "IndexSingle", "IndexBetween", "IndexMulti", "IndexUpfrom"] = true := by
  simp [isIndex, and_assoc]

/-- The name of a descriptor is neither mangled nor `eval`. -/
theorem name_of_isIndex {e : Expr} (h : isIndex e = true) :
    ¬ kMangle.isPrefixOf e.name = true ∧ e.name ≠ ascii "eval" := by
  obtain ⟨-, -, h⟩ := isIndex_iff.1 h
  obtain ⟨name, hname, h⟩ := List.any_eq_true.1 h
  have hall : ∀ name ∈ ["IndexAll", "IndexSingle", "IndexBetween", "IndexMulti", "IndexUpfrom"],
      ¬ kMangle.isPrefixOf (ascii name) = true ∧ ascii name ≠ ascii "eval" := by decide
  rw [eq_of_beq h]
  exact hall name hname

/-- A descriptor is one by its kind, its library and its name. -/
theorem isIndex_congr {e e' : Expr} (hkind : e.kind = e'.kind) (hlib : e.fnLib = e'.fnLib)
    (hname : e.name = e'.name) : isIndex e = isIndex e' := by
  unfold isIndex named
  rw [hkind, hlib, hname]

/-- A well-shaped node with rewritten arguments stays one under its unmangled name exactly when
that name has no other rule. -/
theorem nodeShaped_unmangleNode {g : Expr → Expr} (hg : ∀ i, isIndex i = true → isIndex (g i) = true)
    {e : Expr} (h : NodeShaped R e) :
    NodeShaped R (unmangleNode { e with args := e.args.map g }) ↔
      (e.kind = .funApp → kMangle.isPrefixOf e.name = true →
        validateArity R (unmangleNode e) = .ok ()) := by
  have harity : validateArity R (unmangleNode { e with args := e.args.map g })
      = validateArity R (unmangleNode e) :=
    validateArity_congr rfl rfl rfl (List.length_map g)
  have hindices : e.kind = .indexed → ∀ i ∈ (e.args.map g).tail, isIndex i = true := by
    intro hkind i hi
    rw [← List.map_tail] at hi
    obtain ⟨j, hj, rfl⟩ := List.mem_map.1 hi
    exact hg j (h.indices hkind j hj)
  constructor
  · intro h' _ _
    rw [← harity]
    exact h'.arity
  · intro h'
    refine ⟨harity.trans ?_, hindices⟩
    by_cases hkind : e.kind = .funApp
    · by_cases hname : kMangle.isPrefixOf e.name = true
      · exact h' hkind hname
      · -- an unmangled name stands
        have hsame : validateArity R (unmangleNode e) = validateArity R e :=
          validateArity_congr rfl rfl (unmangleName_of_not_mangled hname) rfl
        exact hsame.trans h.arity
    · have hsame : validateArity R (unmangleNode e) = validateArity R e :=
        validateArity_of_not_call rfl rfl hkind
      exact hsame.trans h.arity

/-! ### Unmangling -/

theorem unmangle_eq (e : Expr) : unmangle e = unmangleNode { e with args := e.args.map unmangle } :=
  Expr.mapNodes_eq unmangleNode e

theorem isIndex_unmangle {e : Expr} (h : isIndex e = true) : isIndex (unmangle e) = true := by
  rw [unmangle_eq, ← h]
  exact isIndex_congr rfl rfl (unmangleName_of_not_mangled (name_of_isIndex h).1)

theorem args_unmangleNode (e : Expr) : (unmangleNode e).args = e.args := rfl

/-- Both rewritings of a well-shaped expression are shaped when its names keep their rules, if they
do to each node what unmangling does. -/
theorem exprShaped_unmangleNode {g : Expr → Expr}
    (hg : ∀ i, isIndex i = true → isIndex (g i) = true) {e : Expr} (he : ExprShaped R e)
    (ih : ∀ a ∈ e.args, ExprShaped R a → (ExprShaped R (g a) ↔ NamesKept R a)) :
    ExprShaped R (unmangleNode { e with args := e.args.map g }) ↔ NamesKept R e := by
  obtain ⟨hnode, hargs⟩ := exprShaped_iff.1 he
  rw [exprShaped_iff, namesKept_iff, nodeShaped_unmangleNode hg hnode]
  apply and_congr_right
  intro _
  rw [args_unmangleNode, List.forall_mem_map]
  exact forall₂_congr fun a ha => ih a ha (hargs a ha)

theorem exprShaped_unmangle {e : Expr} (he : ExprShaped R e) :
    ExprShaped R (unmangle e) ↔ NamesKept R e := by
  induction e using Expr.induction with
  | step e ih =>
    rw [unmangle_eq]
    exact exprShaped_unmangleNode (fun _ => isIndex_unmangle) he ih

/-! ### Stripping -/

theorem stripEval_eq (e : Expr) :
    stripEval e = stripEvalNode { e with args := e.args.map stripEval } :=
  Expr.mapNodes_eq stripEvalNode e

theorem isEval_iff {e : Expr} : isEval e = true ↔ e.kind = .funApp ∧ e.fnLib = .stanLib ∧
    e.name = ascii "eval" ∧ e.args.length = 1 := by
  simp [isEval, and_assoc]

theorem isEval_map (g : Expr → Expr) (e : Expr) :
    isEval { e with args := e.args.map g } = isEval e := by
  simp only [isEval, List.length_map]

theorem stripEval_of_not_eval {e : Expr} (h : ¬ isEval e = true) :
    stripEval e = { e with args := e.args.map stripEval } := by
  rw [stripEval_eq, stripEvalNode, if_neg]
  rwa [isEval_map]

theorem stripEval_of_eval {e : Expr} (h : isEval e = true) :
    ∃ a, e.args = [a] ∧ stripEval e = stripEval a := by
  obtain ⟨a, ha⟩ := List.length_eq_one_iff.1 (isEval_iff.1 h).2.2.2
  refine ⟨a, ha, ?_⟩
  rw [stripEval_eq, stripEvalNode, if_pos (by rwa [isEval_map]), ha]
  rfl

theorem not_isEval_of_isIndex {e : Expr} (h : isIndex e = true) : ¬ isEval e = true :=
  fun heval => (name_of_isIndex h).2 (isEval_iff.1 heval).2.2.1

theorem isIndex_stripEval {e : Expr} (h : isIndex e = true) : isIndex (stripEval e) = true := by
  rw [stripEval_of_not_eval (not_isEval_of_isIndex h), ← h]
  exact isIndex_congr rfl rfl rfl

theorem exprShaped_unmangle_stripEval {e : Expr} (he : ExprShaped R e) :
    ExprShaped R (unmangle (stripEval e)) ↔ NamesKept R e := by
  induction e using Expr.induction with
  | step e ih =>
    by_cases heval : isEval e = true
    · obtain ⟨a, ha, hstrip⟩ := stripEval_of_eval heval
      have hmem : a ∈ e.args := by simp [ha]
      rw [hstrip, ih a hmem ((exprShaped_iff.1 he).2 a hmem), namesKept_iff (e := e), ha]
      -- the wrapper's own name is not mangled
      have hname : ¬ kMangle.isPrefixOf e.name = true := by
        rw [(isEval_iff.1 heval).2.2.1]
        decide
      simp [hname]
    · rw [stripEval_of_not_eval heval, unmangle_eq]
      simp only [List.map_map]
      apply exprShaped_unmangleNode _ he ih
      intro i hi
      exact isIndex_unmangle (isIndex_stripEval hi)

/-! ### Resolving calls -/

theorem rewrites_eq_ok {f : Expr → Checked Expr} {es es' : List Expr}
    (h : Expr.rewrites f es = .ok es') :
    List.Forall₂ (fun e e' => e.rewrite f = .ok e') es es' := by
  induction es generalizing es' with
  | nil =>
    obtain rfl : [] = es' := Except.ok.inj h
    exact List.Forall₂.nil
  | cons e es ih =>
    rw [Expr.rewrites, bind_eq_ok_iff] at h
    obtain ⟨e₁, he, h⟩ := h
    obtain ⟨es₁, hes, h⟩ := bind_eq_ok_iff.1 h
    obtain rfl : e₁ :: es₁ = es' := Except.ok.inj h
    exact List.Forall₂.cons he (ih hes)

/-- Resolving changes the name of a user call or of a function passed by name, and nothing else. -/
theorem resolveNode_eq_ok {e e' : Expr} (h : resolveNode overloads e = .ok e') :
    e' = e ∨ ((e.kind = .funApp ∧ e.fnLib = .userDefined) ∨ e.kind = .var) ∧
      ∃ name, e' = { e with name } := by
  simp only [resolveNode] at h
  split at h
  · exact Or.inl (Except.ok.inj h).symm
  · rename_i hsite
    split at h
    · exact Or.inl (Except.ok.inj h).symm
    · right
      obtain ⟨views, -, h⟩ := bind_eq_ok_iff.1 h
      obtain ⟨name, -, h⟩ := bind_eq_ok_iff.1 h
      refine ⟨?_, name, (Except.ok.inj h).symm⟩
      by_cases hcall : e.kind = .funApp ∧ e.fnLib = .userDefined
      · exact Or.inl hcall
      · right
        by_contra hvar
        apply hsite
        have hcall' : ¬ e.kind = .funApp ∨ ¬ e.fnLib = .userDefined := not_and_or.1 hcall
        simpa [hvar] using hcall'

theorem isIndex_resolveNode {e e' : Expr} (h : resolveNode overloads e = .ok e') :
    isIndex e' = isIndex e := by
  rcases resolveNode_eq_ok h with rfl | ⟨hsite, name, rfl⟩
  · rfl
  · rcases hsite with ⟨hkind, hlib⟩ | hkind
    · have hlib' : ¬ (FnLib.userDefined == FnLib.stanLib) = true := by decide
      simp [isIndex, hlib, hlib']
    · have hkind' : ¬ (ExprKind.var == ExprKind.funApp) = true := by decide
      simp [isIndex, hkind, hkind']

theorem validateArity_resolveNode {e e' : Expr} (h : resolveNode overloads e = .ok e') :
    validateArity R e' = validateArity R e := by
  rcases resolveNode_eq_ok h with rfl | ⟨hsite, name, rfl⟩
  · rfl
  · rcases hsite with ⟨hkind, hlib⟩ | hkind
    · have hnamed : validateArity R { e with name } = .ok () :=
        validateArity_of_userDefined hkind hlib
      exact hnamed.trans (validateArity_of_userDefined hkind hlib).symm
    · have hcall : e.kind ≠ .funApp := by
        rw [hkind]
        decide
      have hnamed : validateArity R e = validateArity R { e with name } :=
        validateArity_of_not_call rfl rfl hcall
      exact hnamed.symm

theorem kind_resolveNode {e e' : Expr} (h : resolveNode overloads e = .ok e') :
    e'.kind = e.kind ∧ e'.args = e.args := by
  rcases resolveNode_eq_ok h with rfl | ⟨-, name, rfl⟩
  · exact ⟨rfl, rfl⟩
  · exact ⟨rfl, rfl⟩

theorem resolveCalls_eq_ok {e e' : Expr} (h : resolveCalls overloads e = .ok e') :
    ∃ args, List.Forall₂ (fun a a' => resolveCalls overloads a = .ok a') e.args args ∧
      resolveNode overloads { e with args } = .ok e' := by
  rw [resolveCalls, Expr.rewrite_eq, bind_eq_ok_iff] at h
  obtain ⟨args, hargs, h⟩ := h
  exact ⟨args, rewrites_eq_ok hargs, h⟩

theorem isIndex_resolveCalls {e e' : Expr} (h : resolveCalls overloads e = .ok e') :
    isIndex e' = isIndex e := by
  obtain ⟨args, -, h⟩ := resolveCalls_eq_ok h
  rw [isIndex_resolveNode h]
  exact isIndex_congr rfl rfl rfl

theorem forall₂_mem_iff {α β : Type} {r : α → β → Prop} {p : α → Prop} {q : β → Prop} {xs : List α}
    {ys : List β} (h : List.Forall₂ r xs ys) (hpq : ∀ x ∈ xs, ∀ y, r x y → (p x ↔ q y)) :
    (∀ x ∈ xs, p x) ↔ ∀ y ∈ ys, q y := by
  induction h with
  | nil => simp
  | cons hxy _ ih =>
    rw [List.forall_mem_cons, List.forall_mem_cons, hpq _ List.mem_cons_self _ hxy,
      ih fun x hx => hpq x (List.mem_cons_of_mem _ hx)]

theorem forall₂_tail {α β : Type} {r : α → β → Prop} {xs : List α} {ys : List β}
    (h : List.Forall₂ r xs ys) : List.Forall₂ r xs.tail ys.tail := by
  cases h with
  | nil => exact List.Forall₂.nil
  | cons _ h => exact h

theorem exprShaped_resolveCalls {e e' : Expr} (h : resolveCalls overloads e = .ok e') :
    ExprShaped R e ↔ ExprShaped R e' := by
  induction e using Expr.induction generalizing e' with
  | step e ih =>
    obtain ⟨args, hargs, hnode⟩ := resolveCalls_eq_ok h
    obtain ⟨hkind, hargs'⟩ := kind_resolveNode hnode
    have harity : validateArity R e' = validateArity R e :=
      (validateArity_resolveNode hnode).trans (validateArity_congr rfl rfl rfl hargs.length_eq.symm)
    have hindices : (∀ i ∈ e.args.tail, isIndex i = true) ↔ ∀ i ∈ e'.args.tail, isIndex i = true := by
      rw [hargs']
      have htail : List.Forall₂ (fun a a' => resolveCalls overloads a = .ok a') e.args.tail
          args.tail := forall₂_tail hargs
      refine forall₂_mem_iff htail fun i _ i' hi => ?_
      rw [isIndex_resolveCalls hi]
    rw [exprShaped_iff, exprShaped_iff]
    apply and_congr
    · constructor
      · rintro ⟨ha, hi⟩
        exact ⟨harity.trans ha, fun hk => hindices.1 (hi (hkind ▸ hk))⟩
      · rintro ⟨ha, hi⟩
        exact ⟨harity.symm.trans ha, fun hk => hindices.2 (hi (hkind.trans hk))⟩
    · rw [hargs']
      exact forall₂_mem_iff hargs fun a ha a' h' => ih a ha h'

theorem resolveExprs_eq_ok {es es' : List Expr} (h : resolveExprs overloads es = .ok es') :
    List.Forall₂ (fun e e' => resolveCalls overloads e = .ok e') es es' :=
  rewrites_eq_ok h

theorem exprsShaped_resolve {es es' : List Expr} (h : resolveExprs overloads es = .ok es') :
    (∀ e ∈ es, ExprShaped R e) ↔ ∀ e ∈ es', ExprShaped R e :=
  forall₂_mem_iff (resolveExprs_eq_ok h) fun _ _ _ => exprShaped_resolveCalls

end Stanli.Mir
