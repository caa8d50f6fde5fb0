import Mathlib.Tactic.Common
import Stanli.Mir.Syntax

namespace Stanli.Mir

/-! ### Trees

The nodes of an expression or a statement, and the passes that rewrite every node of one. -/

variable {m : Type → Type} [Monad m]

/-! ### Expressions -/

/-- An expression is reached through its arguments. -/
theorem Expr.induction {P : Expr → Prop} (step : ∀ e : Expr, (∀ a ∈ e.args, P a) → P e) (e : Expr) :
    P e := by
  refine @Expr.rec P (fun es => ∀ a ∈ es, P a) ?_ ?_ ?_ e
  · intro kind name fnLib fnPropto litI lit litS args type unsized dataOnly promoted raw ih
    exact step _ ih
  · intro a ha
    cases ha
  · intro head tail hhead htail a ha
    rcases List.mem_cons.1 ha with rfl | ha
    · exact hhead
    · exact htail a ha

/-- `x` is `e` or a node below it. -/
inductive Expr.Within : Expr → Expr → Prop
  | refl (e : Expr) : Within e e
  | arg {x a e : Expr} (ha : a ∈ e.args) (h : Within x a) : Within x e

/-- Every node of an expression has the property. -/
def Expr.All (P : Expr → Prop) (e : Expr) : Prop := ∀ x, Expr.Within x e → P x

theorem Expr.all_iff {P : Expr → Prop} {e : Expr} :
    e.All P ↔ P e ∧ ∀ a ∈ e.args, a.All P := by
  constructor
  · intro h
    exact ⟨h e (.refl e), fun a ha x hx => h x (.arg ha hx)⟩
  · rintro ⟨he, hargs⟩ x hx
    cases hx with
    | refl => exact he
    | arg ha hx => exact hargs _ ha x hx

mutual

/-- Rewrite every node of an expression, the arguments first. -/
def Expr.rewrite (f : Expr → m Expr) : Expr → m Expr
  | ⟨kind, name, fnLib, fnPropto, litI, lit, litS, args, type, unsized, dataOnly, promoted, raw⟩ =>
    do
      let args ← Expr.rewrites f args
      f ⟨kind, name, fnLib, fnPropto, litI, lit, litS, args, type, unsized, dataOnly, promoted, raw⟩

def Expr.rewrites (f : Expr → m Expr) : List Expr → m (List Expr)
  | [] => pure []
  | e :: es => do
    let e ← Expr.rewrite f e
    let es ← Expr.rewrites f es
    pure (e :: es)

end

theorem Expr.rewrite_eq (f : Expr → m Expr) (e : Expr) :
    e.rewrite f = (do let args ← Expr.rewrites f e.args; f { e with args }) := by
  cases e
  rw [Expr.rewrite]

/-- Rewrite every node of an expression by a function, the arguments first. -/
def Expr.mapNodes (f : Expr → Expr) (e : Expr) : Expr :=
  Id.run (e.rewrite fun x => pure (f x))

theorem Expr.rewrites_pure (f : Expr → Expr) (es : List Expr) :
    Expr.rewrites (fun x => (pure (f x) : Id Expr)) es = pure (es.map (Expr.mapNodes f)) := by
  induction es with
  | nil => rfl
  | cons e es ih =>
    rw [Expr.rewrites, ih]
    rfl

theorem Expr.mapNodes_eq (f : Expr → Expr) (e : Expr) :
    e.mapNodes f = f { e with args := e.args.map (Expr.mapNodes f) } := by
  rw [Expr.mapNodes, Expr.rewrite_eq, Expr.rewrites_pure]
  rfl

theorem Expr.rewrites_all_pure [LawfulMonad m] {f : Expr → m Expr} {g : Expr → Expr}
    {es : List Expr} (h : ∀ e ∈ es, e.rewrite f = pure (e.mapNodes g)) :
    Expr.rewrites f es = pure (es.map (Expr.mapNodes g)) := by
  induction es with
  | nil => rfl
  | cons e es ih =>
    rw [Expr.rewrites, h e (List.mem_cons_self ..), pure_bind,
      ih fun a ha => h a (List.mem_cons_of_mem _ ha), pure_bind, List.map_cons]

/-- A rewriting that never fails is a map. -/
theorem Expr.rewrite_pure [LawfulMonad m] {f : Expr → m Expr} {g : Expr → Expr} {e : Expr}
    (h : e.All fun x => f { x with args := x.args.map (Expr.mapNodes g) } =
      pure (g { x with args := x.args.map (Expr.mapNodes g) })) :
    e.rewrite f = pure (e.mapNodes g) := by
  induction e using Expr.induction with
  | step e ih =>
    obtain ⟨he, hargs⟩ := Expr.all_iff.1 h
    rw [Expr.rewrite_eq, Expr.rewrites_all_pure fun a ha => ih a ha (hargs a ha), pure_bind, he,
      Expr.mapNodes_eq]

theorem Expr.mapNodes_eq_self {g : Expr → Expr} {e : Expr} (h : e.All fun x => g x = x) :
    e.mapNodes g = e := by
  induction e using Expr.induction with
  | step e ih =>
    obtain ⟨he, hargs⟩ := Expr.all_iff.1 h
    have hmap : e.args.map (Expr.mapNodes g) = e.args.map id :=
      List.map_congr_left fun a ha => ih a ha (hargs a ha)
    rw [Expr.mapNodes_eq, hmap, List.map_id]
    cases e
    exact he

/-- The nodes of a mapped expression are the mapped nodes. -/
theorem Expr.Within.of_mapNodes {g : Expr → Expr} (hg : ∀ x, (g x).args = x.args) {e y : Expr}
    (h : Expr.Within y (e.mapNodes g)) : ∃ x, Expr.Within x e ∧ y = x.mapNodes g := by
  induction e using Expr.induction with
  | step e ih =>
    cases h with
    | refl => exact ⟨e, .refl e, rfl⟩
    | arg ha h =>
      rw [Expr.mapNodes_eq, hg] at ha
      obtain ⟨a, hmem, rfl⟩ := List.mem_map.1 ha
      obtain ⟨x, hx, rfl⟩ := ih a hmem h
      exact ⟨x, .arg hmem hx, rfl⟩

/-- A map that changes nothing in an expression changes none of its nodes. -/
theorem Expr.mapNodes_eq_self_of_within {g : Expr → Expr} (hg : ∀ x, (g x).args = x.args)
    {e x : Expr} (h : Expr.Within x e) (heq : e.mapNodes g = e) : x.mapNodes g = x := by
  induction h with
  | refl => exact heq
  | arg ha _ ih =>
    apply ih
    rw [Expr.mapNodes_eq] at heq
    have hargs := congrArg Expr.args heq
    rw [hg] at hargs
    exact List.map_inj_left.1 (hargs.trans (List.map_id _).symm) _ ha

/-! ### Statements -/

theorem Stmt.induction {P : Stmt → Prop} (step : ∀ s : Stmt, (∀ c ∈ s.body, P c) → P s) (s : Stmt) :
    P s := by
  refine @Stmt.rec P (fun ss => ∀ c ∈ ss, P c) ?_ ?_ ?_ s
  · intros
    exact step _ (by assumption)
  · intro c hc
    cases hc
  · intro head tail hhead htail c hc
    rcases List.mem_cons.1 hc with rfl | hc
    · exact hhead
    · exact htail c hc

/-- `x` is `s` or a statement in its body. -/
inductive Stmt.Within : Stmt → Stmt → Prop
  | refl (s : Stmt) : Within s s
  | child {x c s : Stmt} (hc : c ∈ s.body) (h : Within x c) : Within x s

/-- Every statement of a tree has the property. -/
def Stmt.All (P : Stmt → Prop) (s : Stmt) : Prop := ∀ x, Stmt.Within x s → P x

theorem Stmt.all_iff {P : Stmt → Prop} {s : Stmt} :
    s.All P ↔ P s ∧ ∀ c ∈ s.body, c.All P := by
  constructor
  · intro h
    exact ⟨h s (.refl s), fun c hc x hx => h x (.child hc hx)⟩
  · rintro ⟨hs, hbody⟩ x hx
    cases hx with
    | refl => exact hs
    | child hc hx => exact hbody _ hc x hx

mutual

/-- Rewrite every statement of a tree, each before its body.  The step leaves the body alone. -/
def Stmt.rewrite (f : Stmt → m Stmt) : Stmt → m Stmt
  | ⟨kind, declId, declType, declDataOnly, hasInit, init, readTransform, readDims, lhs, lhsIdx, rhs,
      target, fnName, fnArgs, checkTransform, checkVarName, writeTransform, loopvar, lower, upper,
      cond, body, raw⟩ => do
    let s ← f ⟨kind, declId, declType, declDataOnly, hasInit, init, readTransform, readDims, lhs,
      lhsIdx, rhs, target, fnName, fnArgs, checkTransform, checkVarName, writeTransform, loopvar,
      lower, upper, cond, body, raw⟩
    let body ← Stmt.rewrites f body
    pure { s with body }

def Stmt.rewrites (f : Stmt → m Stmt) : List Stmt → m (List Stmt)
  | [] => pure []
  | s :: ss => do
    let s ← Stmt.rewrite f s
    let ss ← Stmt.rewrites f ss
    pure (s :: ss)

end

theorem Stmt.rewrite_eq (f : Stmt → m Stmt) (s : Stmt) :
    s.rewrite f = (do
      let s' ← f s
      let body ← Stmt.rewrites f s.body
      pure { s' with body }) := by
  cases s
  rw [Stmt.rewrite]

/-- Rewrite every statement of a tree by a function that leaves the body alone. -/
def Stmt.mapNodes (g : Stmt → Stmt) (s : Stmt) : Stmt :=
  Id.run (s.rewrite fun x => pure (g x))

theorem Stmt.rewrites_pure (g : Stmt → Stmt) (ss : List Stmt) :
    Stmt.rewrites (fun x => (pure (g x) : Id Stmt)) ss = pure (ss.map (Stmt.mapNodes g)) := by
  induction ss with
  | nil => rfl
  | cons s ss ih =>
    rw [Stmt.rewrites, ih]
    rfl

theorem Stmt.mapNodes_eq (g : Stmt → Stmt) (s : Stmt) :
    s.mapNodes g = { g s with body := s.body.map (Stmt.mapNodes g) } := by
  rw [Stmt.mapNodes, Stmt.rewrite_eq, Stmt.rewrites_pure]
  rfl

theorem Stmt.rewrites_all_pure [LawfulMonad m] {f : Stmt → m Stmt} {g : Stmt → Stmt}
    {ss : List Stmt} (h : ∀ s ∈ ss, s.rewrite f = pure (s.mapNodes g)) :
    Stmt.rewrites f ss = pure (ss.map (Stmt.mapNodes g)) := by
  induction ss with
  | nil => rfl
  | cons s ss ih =>
    rw [Stmt.rewrites, h s (List.mem_cons_self ..), pure_bind,
      ih fun c hc => h c (List.mem_cons_of_mem _ hc), pure_bind, List.map_cons]

theorem Stmt.rewrite_pure [LawfulMonad m] {f : Stmt → m Stmt} {g : Stmt → Stmt} {s : Stmt}
    (h : s.All fun x => f x = pure (g x)) : s.rewrite f = pure (s.mapNodes g) := by
  induction s using Stmt.induction with
  | step s ih =>
    obtain ⟨hs, hbody⟩ := Stmt.all_iff.1 h
    rw [Stmt.rewrite_eq, hs, pure_bind, Stmt.rewrites_all_pure fun c hc => ih c hc (hbody c hc),
      pure_bind, Stmt.mapNodes_eq]

theorem Stmt.mapNodes_congr {g g' : Stmt → Stmt} {s : Stmt} (h : s.All fun x => g x = g' x) :
    s.mapNodes g = s.mapNodes g' := by
  induction s using Stmt.induction with
  | step s ih =>
    obtain ⟨hs, hbody⟩ := Stmt.all_iff.1 h
    rw [Stmt.mapNodes_eq, Stmt.mapNodes_eq, hs, List.map_congr_left fun c hc => ih c hc (hbody c hc)]

theorem Stmt.mapNodes_eq_self {g : Stmt → Stmt} {s : Stmt} (h : s.All fun x => g x = x) :
    s.mapNodes g = s := by
  induction s using Stmt.induction with
  | step s ih =>
    obtain ⟨hs, hbody⟩ := Stmt.all_iff.1 h
    have hmap : s.body.map (Stmt.mapNodes g) = s.body.map id :=
      List.map_congr_left fun c hc => ih c hc (hbody c hc)
    rw [Stmt.mapNodes_eq, hs, hmap, List.map_id]
    cases s
    rfl

theorem Stmt.Within.of_mapNodes {g : Stmt → Stmt} {s y : Stmt} (h : Stmt.Within y (s.mapNodes g)) :
    ∃ x, Stmt.Within x s ∧ y = x.mapNodes g := by
  induction s using Stmt.induction with
  | step s ih =>
    cases h with
    | refl => exact ⟨s, .refl s, rfl⟩
    | child hc h =>
      rw [Stmt.mapNodes_eq] at hc
      obtain ⟨c, hmem, rfl⟩ := List.mem_map.1 hc
      obtain ⟨x, hx, rfl⟩ := ih c hmem h
      exact ⟨x, .child hmem hx, rfl⟩

/-- Two maps that agree on a tree agree at every statement of it. -/
theorem Stmt.mapNodes_congr_within {g g' : Stmt → Stmt} {s x : Stmt} (h : Stmt.Within x s)
    (heq : s.mapNodes g = s.mapNodes g') : x.mapNodes g = x.mapNodes g' := by
  induction h with
  | refl => exact heq
  | child hc _ ih =>
    apply ih
    rw [Stmt.mapNodes_eq, Stmt.mapNodes_eq] at heq
    have hbody := congrArg Stmt.body heq
    exact List.map_inj_left.1 hbody _ hc

/-! ### Positions -/

/-- The expressions a statement holds outside its target, its transforms and its body. -/
def Stmt.operands (s : Stmt) : List Expr :=
  s.declType.dims ++ [s.init, s.rhs, s.lower, s.upper, s.cond] ++ s.readDims ++ s.lhsIdx ++ s.fnArgs

/-- The transforms a statement holds. -/
def Stmt.transforms (s : Stmt) : List Transform :=
  s.readTransform.toList ++ s.checkTransform.toList ++ s.writeTransform.toList

/-- The statements of a program outside the bodies of others. -/
def Program.stmts (p : Program) : List Stmt :=
  p.prepareData ++ p.logProb ++ p.generateQuantities ++ p.transformInits ++
    p.funDefs.flatMap FunDef.body

end Stanli.Mir
