import Stanli.Lowering.TargetLoopLower

/-!
# What a statement of a target loop depends on

Two environments that agree on the names in scope give the same lowering: the same terms or the same
error, and environments that agree again.  The proof walks over the statement once for the regions and
once for the graph.
-/

namespace Stanli

namespace TargetLoop

open Mir

variable {V R : Type} {hidden : List Bytes} {env env' : Env V}

/-! ## Names in scope -/

lemma anyReferences_eq_false {n : Bytes} {es : List Expr} :
    anyReferences n es = false ↔ ∀ e ∈ es, references n e = false := by
  induction es with
  | nil => simp [anyReferences]
  | cons e es ih => simp [anyReferences, ih]

lemma inScope_iff {e : Expr} : inScope hidden e = true ↔ ∀ n ∈ hidden, references n e = false := by
  simp [inScope]

lemma inScope_args {e a : Expr} (h : inScope hidden e = true) (ha : a ∈ e.args) :
    inScope hidden a = true := by
  rw [inScope_iff] at h ⊢
  intro n hn
  have hn' := h n hn
  cases e
  rw [references, Bool.or_eq_false_iff] at hn'
  exact anyReferences_eq_false.1 hn'.2 a ha

lemma inScope_var {e : Expr} (h : inScope hidden e = true) (hk : e.kind = .var) :
    e.name ∉ hidden := by
  intro hn
  have hn' := inScope_iff.1 h _ hn
  cases e
  subst hk
  simp [references] at hn'

lemma AgreeOff.mono {hidden' : List Bytes} (h : AgreeOff hidden env env') (hsub : hidden ⊆ hidden') :
    AgreeOff hidden' env env' := fun n hn => h n fun hmem => hn (hsub hmem)

/-- Binding a name the same way reveals it. -/
lemma AgreeOff.set (h : AgreeOff hidden env env') (name : Bytes) (b : Option (Binding V)) :
    AgreeOff (hidden.filter (· ≠ name)) (env.set name b) (env'.set name b) := by
  intro n hn
  rw [Env.set, Env.set]
  split_ifs with heq
  · rfl
  · apply h n
    intro hmem
    apply hn
    simp [hmem, heq]

lemma AgreeOff.set_same (h : AgreeOff hidden env env') (name : Bytes) (b : Option (Binding V)) :
    AgreeOff hidden (env.set name b) (env'.set name b) :=
  (h.set name b).mono fun _ hn => List.mem_of_mem_filter hn

/-- A binding of a hidden name is not seen. -/
lemma AgreeOff.set_hidden {name : Bytes} (h : AgreeOff hidden env env') (hn : name ∈ hidden)
    (b b' : Option (Binding V)) : AgreeOff hidden (env.set name b) (env'.set name b') := by
  intro n hmem
  have hne : n ≠ name := by
    rintro rfl
    exact hmem hn
  rw [Env.set, Env.set, if_neg hne, if_neg hne]
  exact h n hmem

/-! ## Expressions -/

variable {c : Context V R}

lemma runExprs_congr {es : List Expr}
    (h : ∀ e ∈ es, runExpr c env e = runExpr c env' e) : runExprs c env es = runExprs c env' es := by
  induction es with
  | nil => rfl
  | cons e es ih =>
    rw [runExprs, runExprs, h e (List.mem_cons_self ..),
      ih fun a ha => h a (List.mem_cons_of_mem _ ha)]

/-- An expression sees the names it mentions. -/
lemma runExpr_congr {e : Expr} (hs : inScope hidden e = true) (h : AgreeOff hidden env env') :
    runExpr c env e = runExpr c env' e := by
  induction e using Expr.induction with
  | step e ih =>
    have hargs : ∀ a ∈ e.args, runExpr c env a = runExpr c env' a :=
      fun a ha => ih a ha (inScope_args hs ha)
    have hall := runExprs_congr hargs
    have hvar : e.kind = .var → env e.name = env' e.name := fun hk => h _ (inScope_var hs hk)
    obtain ⟨kind, name, fnLib, fnPropto, litI, lit, litS, args, type, unsized, dataOnly, promoted, raw⟩
      := e
    cases kind with
    | var =>
      have hn := hvar rfl
      simp only at hn
      simp only [runExpr, hn]
    | funApp | indexed =>
      simp only at hall
      simp only [runExpr, hall]
    | promotion =>
      obtain _ | ⟨a, _ | ⟨b, rest⟩⟩ := args
      · simp only [runExpr]
      · simpa only [runExpr] using hargs a (by simp)
      · simp only [runExpr]
    | ternaryIf =>
      obtain _ | ⟨a, _ | ⟨b, _ | ⟨d, _ | ⟨e, rest⟩⟩⟩⟩ := args
      · simp only [runExpr]
      · simp only [runExpr]
      · simp only [runExpr]
      · simp only [runExpr, hargs a (by simp), hargs b (by simp), hargs d (by simp)]
      · simp only [runExpr]
    | eOr | eAnd =>
      obtain _ | ⟨a, _ | ⟨b, _ | ⟨d, rest⟩⟩⟩ := args
      · simp only [runExpr]
      · simp only [runExpr]
      · simp only [runExpr, hargs a (by simp), hargs b (by simp)]
      · simp only [runExpr]
    | litInt | litReal | litStr | unsupported => simp only [runExpr]

lemma evalExpr_congr {e : Expr} (hs : inScope hidden e = true) (h : AgreeOff hidden env env') :
    evalExpr c env e = evalExpr c env' e := by
  rw [evalExpr, evalExpr, runExpr_congr hs h]

lemma evalInt_congr {e : Expr} (hs : inScope hidden e = true) (h : AgreeOff hidden env env') :
    evalInt c env e = evalInt c env' e := by
  rw [evalInt, evalInt, evalExpr_congr hs h]

lemma mapM_evalExpr_congr {es : List Expr} (hs : es.all (inScope hidden) = true)
    (h : AgreeOff hidden env env') : es.mapM (evalExpr c env) = es.mapM (evalExpr c env') := by
  induction es with
  | nil => rfl
  | cons e es ih =>
    rw [List.all_cons, Bool.and_eq_true] at hs
    rw [List.mapM_cons, List.mapM_cons, evalExpr_congr hs.1 h, ih hs.2]

lemma lowerExprs_congr {es : List Expr}
    (h : ∀ e ∈ es, lowerExpr c env e = lowerExpr c env' e) :
    lowerExprs c env es = lowerExprs c env' es := by
  induction es with
  | nil => rfl
  | cons e es ih =>
    rw [lowerExprs, lowerExprs, h e (List.mem_cons_self ..),
      ih fun a ha => h a (List.mem_cons_of_mem _ ha)]

lemma lowerExpr_congr {e : Expr} (hs : inScope hidden e = true) (h : AgreeOff hidden env env') :
    lowerExpr c env e = lowerExpr c env' e := by
  induction e using Expr.induction with
  | step e ih =>
    have hargs : ∀ a ∈ e.args, lowerExpr c env a = lowerExpr c env' a :=
      fun a ha => ih a ha (inScope_args hs ha)
    have hall := lowerExprs_congr hargs
    have hself := evalExpr_congr (c := c) hs h
    have hfold := c.folds_local hidden env env' e hs h
    have hcond : ∀ a ∈ e.args, c.evaluates env a = c.evaluates env' a ∧
        evalExpr c env a = evalExpr c env' a := fun a ha =>
      ⟨c.evaluates_local hidden env env' a (inScope_args hs ha) h,
        evalExpr_congr (inScope_args hs ha) h⟩
    obtain ⟨kind, name, fnLib, fnPropto, litI, lit, litS, args, type, unsized, dataOnly, promoted, raw⟩
      := e
    simp only at hall
    cases kind with
    | funApp | indexed => simp only [lowerExpr, hfold, hself, hall]
    | promotion =>
      obtain _ | ⟨a, _ | ⟨b, rest⟩⟩ := args
      · simp only [lowerExpr, hfold, hself]
      · simp only [lowerExpr, hfold, hself, hargs a (by simp)]
      · simp only [lowerExpr, hfold, hself]
    | ternaryIf =>
      obtain _ | ⟨a, _ | ⟨b, _ | ⟨d, _ | ⟨e, rest⟩⟩⟩⟩ := args
      · simp only [lowerExpr, hfold, hself]
      · simp only [lowerExpr, hfold, hself]
      · simp only [lowerExpr, hfold, hself]
      · simp only [lowerExpr, hfold, hself, hargs b (by simp), hargs d (by simp),
          (hcond a (by simp)).1, (hcond a (by simp)).2]
      · simp only [lowerExpr, hfold, hself]
    | var | litInt | litReal | litStr | eOr | eAnd | unsupported =>
      simp only [lowerExpr, hfold, hself]

/-! ## Outcomes -/

/-- The same error, or the same terms and environments that agree. -/
inductive SameOutcome (hidden : List Bytes) : Lower (Outcome V R) → Lower (Outcome V R) → Prop
  | error (e : LowerError) : SameOutcome hidden (.error e) (.error e)
  | ok {a b : Env V} (ts : List R) (h : AgreeOff hidden a b) :
      SameOutcome hidden (.ok (a, ts)) (.ok (b, ts))

variable {x y : Lower (Outcome V R)}

lemma SameOutcome.mono {hidden' : List Bytes} (h : SameOutcome hidden x y)
    (hsub : hidden ⊆ hidden') : SameOutcome hidden' x y := by
  cases h with
  | error e => exact .error e
  | ok ts h => exact .ok ts (h.mono hsub)

lemma SameOutcome.bind {α : Type} {z : Lower α} {f g : α → Lower (Outcome V R)}
    (h : ∀ a, SameOutcome hidden (f a) (g a)) : SameOutcome hidden (z >>= f) (z >>= g) := by
  cases z with
  | error e => exact .error e
  | ok a => exact h a

/-- What is made of an outcome: the terms by any function, the environment by one that keeps
agreement. -/
lemma SameOutcome.map {hidden' : List Bytes} (h : SameOutcome hidden x y) (F G : Env V → Env V)
    (T : List R → List R) (hFG : ∀ a b, AgreeOff hidden a b → AgreeOff hidden' (F a) (G b)) :
    SameOutcome hidden' (x >>= fun r => pure (F r.1, T r.2)) (y >>= fun r => pure (G r.1, T r.2)) := by
  cases h with
  | error e => exact .error e
  | ok ts h => exact .ok (T ts) (hFG _ _ h)

lemma SameOutcome.andThen {hidden' : List Bytes} (h : SameOutcome hidden x y)
    {f g : Env V → Lower (Outcome V R)}
    (hfg : ∀ a b, AgreeOff hidden a b → SameOutcome hidden' (f a) (g b)) :
    SameOutcome hidden' (TargetLoop.andThen x f) (TargetLoop.andThen y g) := by
  cases h with
  | error e => exact .error e
  | ok ts h => exact (hfg _ _ h).map id id (fun us => ts ++ us) fun _ _ hab => hab

lemma hiddenAfterAll_subset {ss : List Stmt} (h : ∀ s ∈ ss, ∀ hidden, hiddenAfter hidden s ⊆ hidden)
    (hidden : List Bytes) : hiddenAfterAll hidden ss ⊆ hidden := by
  induction ss generalizing hidden with
  | nil => exact fun _ hn => hn
  | cons s ss ih =>
    rw [hiddenAfterAll]
    exact List.Subset.trans (ih (fun t ht => h t (List.mem_cons_of_mem _ ht)) _)
      (h s (List.mem_cons_self ..) hidden)

/-- A statement hides nothing. -/
lemma hiddenAfter_subset (hidden : List Bytes) (s : Stmt) : hiddenAfter hidden s ⊆ hidden := by
  induction s using Stmt.induction generalizing hidden with
  | step s ih =>
    obtain ⟨⟩ := s
    rw [hiddenAfter]
    split_ifs
    · exact fun _ hn => List.mem_of_mem_filter hn
    · exact hiddenAfterAll_subset (fun t ht hid => ih t ht hid) hidden
    · exact fun _ hn => hn

lemma hiddenAfterAll_subset_self (hidden : List Bytes) (ss : List Stmt) :
    hiddenAfterAll hidden ss ⊆ hidden :=
  hiddenAfterAll_subset (fun s _ hid => hiddenAfter_subset hid s) hidden

/-! ## Regions -/

lemma declare_same {known known' : Bool} {base : Bytes} {dims : List Expr} {name : Bytes}
    {init init' : Option (Lower (Lowered V R))} (hk : known = known') (hi : init = init')
    (hd : dims.all (inScope hidden) = true) (h : AgreeOff hidden env env') :
    SameOutcome (hidden.filter (· ≠ name)) (declare c known env base dims name init)
      (declare c known' env' base dims name init') := by
  subst hk hi
  rw [declare, declare, mapM_evalExpr_congr hd h]
  refine SameOutcome.bind fun extents => ?_
  cases init with
  | some x => exact SameOutcome.bind fun v => .ok _ (h.set name _)
  | none => exact SameOutcome.bind fun v => .ok _ (h.set name _)

lemma assign_same {known known' : Bool} {name : Bytes} {idx : List Expr}
    {rhs rhs' : Lower (Lowered V R)} (hk : known = known') (hr : rhs = rhs') (hn : name ∉ hidden)
    (hi : idx.all (inScope hidden) = true) (h : AgreeOff hidden env env') :
    SameOutcome hidden (assign c known env name idx rhs) (assign c known' env' name idx rhs') := by
  subst hk hr
  rw [assign, assign, mapM_evalExpr_congr hi h, h name hn]
  refine SameOutcome.bind fun v => SameOutcome.bind fun at_ => ?_
  cases env' name with
  | none => exact .error _
  | some old => exact SameOutcome.bind fun next => .ok _ (h.set_same name _)

lemma runLoop_same {upper upper' : Env V → Lower ℤ} {body body' : ℤ → Env V → Lower (Outcome V R)}
    (hu : ∀ a b, AgreeOff hidden a b → upper a = upper' b)
    (hb : ∀ v a b, AgreeOff hidden a b → SameOutcome hidden (body v a) (body' v b))
    (fuel : ℕ) (v : ℤ) (h : AgreeOff hidden env env') :
    SameOutcome hidden (runLoop upper body fuel v env) (runLoop upper' body' fuel v env') := by
  induction fuel generalizing v env env' with
  | zero => exact .error _
  | succ fuel ih =>
    rw [runLoop, runLoop, hu _ _ h]
    refine SameOutcome.bind fun hi => ?_
    split_ifs
    · exact .ok [] h
    · exact (hb v _ _ h).andThen fun a b hab => ih (v + 1) hab

lemma runStmts_same {ss : List Stmt}
    (ih : ∀ s ∈ ss, ∀ (hidden : List Bytes) (a b : Env V), wellScoped hidden s = true →
      AgreeOff hidden a b → SameOutcome (hiddenAfter hidden s) (runStmt c a s) (runStmt c b s))
    (hs : allWellScoped hidden ss = true) (h : AgreeOff hidden env env') :
    SameOutcome (hiddenAfterAll hidden ss) (runStmts c env ss) (runStmts c env' ss) := by
  induction ss generalizing hidden env env' with
  | nil => exact .ok [] h
  | cons s ss ihs =>
    rw [allWellScoped, Bool.and_eq_true] at hs
    rw [runStmts, runStmts, hiddenAfterAll]
    exact (ih s (List.mem_cons_self ..) hidden env env' hs.1 h).andThen fun a b hab =>
      ihs (fun t ht => ih t (List.mem_cons_of_mem _ ht)) hs.2 hab

lemma runArm_same {ss : List Stmt}
    (ih : ∀ s ∈ ss, ∀ (hidden : List Bytes) (a b : Env V), wellScoped hidden s = true →
      AgreeOff hidden a b → SameOutcome (hiddenAfter hidden s) (runStmt c a s) (runStmt c b s))
    (hs : armsWellScoped hidden ss = true) (h : AgreeOff hidden env env') (k : ℕ) :
    SameOutcome hidden (runArm c env ss k) (runArm c env' ss k) := by
  induction ss generalizing k with
  | nil => exact .ok [] h
  | cons s ss ihs =>
    rw [armsWellScoped, Bool.and_eq_true] at hs
    cases k with
    | zero =>
      exact (ih s (List.mem_cons_self ..) hidden env env' hs.1 h).mono (hiddenAfter_subset hidden s)
    | succ k => exact ihs (fun t ht => ih t (List.mem_cons_of_mem _ ht)) hs.2 k

/-- A statement inside a region sees the names in scope. -/
theorem runStmt_same {s : Stmt} (hs : wellScoped hidden s = true) (h : AgreeOff hidden env env') :
    SameOutcome (hiddenAfter hidden s) (runStmt c env s) (runStmt c env' s) := by
  induction s using Stmt.induction generalizing hidden env env' with
  | step s ih =>
    have ih' : ∀ t ∈ s.body, ∀ (hid : List Bytes) (a b : Env V), wellScoped hid t = true →
        AgreeOff hid a b → SameOutcome (hiddenAfter hid t) (runStmt c a t) (runStmt c b t) :=
      fun t ht hid a b hts hab => ih t ht hts hab
    obtain ⟨kind, declId, declType, declDataOnly, hasInit, init, readTransform, readDims, lhs, lhsIdx,
      rhs, target, fnName, fnArgs, checkTransform, checkVarName, writeTransform, loopvar, lower, upper,
      cond, body, raw⟩ := s
    simp only at ih'
    cases kind with
    | skip =>
      simp only [runStmt, hiddenAfter, reduceCtorEq, if_false]
      exact .ok [] h
    | block =>
      simp only [wellScoped] at hs
      simpa [runStmt, hiddenAfter] using
        (runStmts_same ih' hs h).mono (hiddenAfterAll_subset_self hidden body)
    | sList =>
      simp only [wellScoped] at hs
      simpa [runStmt, hiddenAfter] using runStmts_same ih' hs h
    | targetPE =>
      simp only [wellScoped, Bool.and_eq_true] at hs
      simp only [runStmt, runExpr_congr hs.2 h, hiddenAfter]
      exact SameOutcome.bind fun v => .ok _ h
    | decl =>
      simp only [wellScoped, Bool.and_eq_true] at hs
      simp only [runStmt, hiddenAfter, if_true]
      refine declare_same rfl ?_ hs.1.2 h
      cases hasInit with
      | false => rfl
      | true => simpa using runExpr_congr (c := c) (by simpa using hs.2) h
    | assignment =>
      simp only [wellScoped, Bool.and_eq_true, Bool.not_eq_true', List.contains_eq_mem,
        decide_eq_false_iff_not] at hs
      simp only [runStmt, hiddenAfter, reduceCtorEq, if_false]
      exact assign_same rfl (runExpr_congr hs.1.2 h) hs.1.1.2 hs.2 h
    | ifElse =>
      simp only [wellScoped, Bool.and_eq_true] at hs
      simp only [runStmt, runExpr_congr hs.1 h, hiddenAfter, reduceCtorEq, if_false]
      refine SameOutcome.bind fun v => SameOutcome.bind fun t => ?_
      exact (runArm_same ih' hs.2 h _).map id id (fun us => v.2 ++ us) fun _ _ hab => hab
    | «for» =>
      simp only [wellScoped, Bool.and_eq_true] at hs
      simp only [runStmt, evalInt_congr hs.1.1 h, hiddenAfter, reduceCtorEq, if_false]
      refine SameOutcome.bind fun lo => ?_
      have hbody : ∀ (v : ℤ) (a b : Env V), AgreeOff hidden a b → SameOutcome hidden
          (runStmts c (a.set loopvar (some ⟨c.ops.litInt v, false⟩)) body)
          (runStmts c (b.set loopvar (some ⟨c.ops.litInt v, false⟩)) body) := fun v a b hab =>
        (runStmts_same ih' hs.2 (hab.set loopvar _)).mono
          (List.Subset.trans (hiddenAfterAll_subset_self _ body)
            fun _ hn => List.mem_of_mem_filter hn)
      have hloop := runLoop_same (fun a b hab => evalInt_congr (c := c) hs.1.2 hab) hbody c.steps lo h
      refine hloop.map (fun a => a.set loopvar (env loopvar)) (fun b => b.set loopvar (env' loopvar))
        (fun us => us) fun a b hab n hn => ?_
      rw [Env.set, Env.set]
      split_ifs with heq
      · exact h loopvar (heq ▸ hn)
      · exact hab n hn
    | «while» | nrFunApp | «return» | «break» | «continue» | unsupported =>
      simpa [runStmt] using SameOutcome.error (V := V) (R := R) _

/-! ## The graph -/

lemma unroll_same {body body' : ℤ → Env V → Lower (Outcome V R)}
    (hb : ∀ v a b, AgreeOff hidden a b → SameOutcome hidden (body v a) (body' v b))
    (vs : List ℤ) (h : AgreeOff hidden env env') :
    SameOutcome hidden (unroll body vs env) (unroll body' vs env') := by
  induction vs generalizing env env' with
  | nil => exact .ok [] h
  | cons v vs ih => exact (hb v _ _ h).andThen fun a b hab => ih hab

variable [Semiring R] {scale : R}

lemma lowerRegion_same {s : Stmt} (hs : wellScoped hidden s = true) (h : AgreeOff hidden env env') :
    SameOutcome hidden (lowerRegion c scale env s) (lowerRegion c scale env' s) := by
  rw [lowerRegion, lowerRegion]
  have hrun := (runStmt_same (c := c) hs h).mono (hiddenAfter_subset hidden s)
  refine hrun.map _ _ (fun ts => if hasTargetPE s then pushTargetTerm scale ts.sum else [])
    fun a b hab n hn => ?_
  rw [carryOut, carryOut, h n hn, hab n hn]

lemma lowerStmts_same {ss : List Stmt}
    (ih : ∀ s ∈ ss, ∀ (σ : R) (hidden : List Bytes) (a b : Env V), wellScoped hidden s = true →
      AgreeOff hidden a b → SameOutcome (hiddenAfter hidden s) (lowerStmt c σ a s) (lowerStmt c σ b s))
    (hs : allWellScoped hidden ss = true) (h : AgreeOff hidden env env') :
    SameOutcome (hiddenAfterAll hidden ss) (lowerStmts c scale env ss) (lowerStmts c scale env' ss) := by
  induction ss generalizing hidden env env' with
  | nil => exact .ok [] h
  | cons s ss ihs =>
    rw [allWellScoped, Bool.and_eq_true] at hs
    rw [lowerStmts, lowerStmts, hiddenAfterAll]
    exact (ih s (List.mem_cons_self ..) scale hidden env env' hs.1 h).andThen fun a b hab =>
      ihs (fun t ht => ih t (List.mem_cons_of_mem _ ht)) hs.2 hab

lemma lowerArm_same {ss : List Stmt}
    (ih : ∀ s ∈ ss, ∀ (σ : R) (hidden : List Bytes) (a b : Env V), wellScoped hidden s = true →
      AgreeOff hidden a b → SameOutcome (hiddenAfter hidden s) (lowerStmt c σ a s) (lowerStmt c σ b s))
    (hs : armsWellScoped hidden ss = true) (h : AgreeOff hidden env env') (k : ℕ) :
    SameOutcome hidden (lowerArm c scale env ss k) (lowerArm c scale env' ss k) := by
  induction ss generalizing k with
  | nil => exact .ok [] h
  | cons s ss ihs =>
    rw [armsWellScoped, Bool.and_eq_true] at hs
    cases k with
    | zero =>
      exact (ih s (List.mem_cons_self ..) scale hidden env env' hs.1 h).mono
        (hiddenAfter_subset hidden s)
    | succ k => exact ihs (fun t ht => ih t (List.mem_cons_of_mem _ ht)) hs.2 k

/-- A statement lowered on the graph sees the names in scope. -/
theorem lowerStmt_same {s : Stmt} (hs : wellScoped hidden s = true) (h : AgreeOff hidden env env') :
    SameOutcome (hiddenAfter hidden s) (lowerStmt c scale env s) (lowerStmt c scale env' s) := by
  induction s using Stmt.induction generalizing hidden env env' scale with
  | step s ih =>
    have ih' : ∀ t ∈ s.body, ∀ (σ : R) (hid : List Bytes) (a b : Env V), wellScoped hid t = true →
        AgreeOff hid a b → SameOutcome (hiddenAfter hid t) (lowerStmt c σ a t) (lowerStmt c σ b t) :=
      fun t ht σ hid a b hts hab => ih t ht hts hab
    have hregion : SameOutcome hidden (lowerRegion c scale env s) (lowerRegion c scale env' s) :=
      lowerRegion_same hs h
    have hbounds := c.boundsKnown_local hidden env env' s hs h
    obtain ⟨kind, declId, declType, declDataOnly, hasInit, init, readTransform, readDims, lhs, lhsIdx,
      rhs, target, fnName, fnArgs, checkTransform, checkVarName, writeTransform, loopvar, lower, upper,
      cond, body, raw⟩ := s
    simp only at ih'
    cases kind with
    | skip =>
      simp only [lowerStmt, hiddenAfter, reduceCtorEq, if_false]
      exact .ok [] h
    | block =>
      simp only [wellScoped] at hs
      simpa [lowerStmt, hiddenAfter] using
        (lowerStmts_same ih' hs h).mono (hiddenAfterAll_subset_self hidden body)
    | sList =>
      simp only [wellScoped] at hs
      simpa [lowerStmt, hiddenAfter] using lowerStmts_same ih' hs h
    | targetPE =>
      simp only [wellScoped, Bool.and_eq_true] at hs
      simp only [lowerStmt, lowerExpr_congr hs.2 h, hiddenAfter, reduceCtorEq, if_false]
      exact SameOutcome.bind fun v => .ok _ h
    | decl =>
      simp only [wellScoped, Bool.and_eq_true] at hs
      simp only [lowerStmt, hiddenAfter, if_true]
      cases hasInit with
      | false => exact declare_same rfl rfl hs.1.2 h
      | true =>
        have hi : inScope hidden init = true := by simpa using hs.2
        refine declare_same ?_ ?_ hs.1.2 h
        · rw [c.evaluates_local hidden env env' init hi h]
        · simpa using lowerExpr_congr (c := c) hi h
    | assignment =>
      simp only [wellScoped, Bool.and_eq_true, Bool.not_eq_true', List.contains_eq_mem,
        decide_eq_false_iff_not] at hs
      simp only [lowerStmt, hiddenAfter, reduceCtorEq, if_false]
      exact assign_same (c.evaluates_local hidden env env' rhs hs.1.2 h) (lowerExpr_congr hs.1.2 h)
        hs.1.1.2 hs.2 h
    | ifElse =>
      simp only [wellScoped, Bool.and_eq_true] at hs
      simp only [lowerStmt, hiddenAfter, reduceCtorEq, if_false,
        c.evaluates_local hidden env env' cond hs.1 h, evalExpr_congr hs.1 h]
      split_ifs
      · exact SameOutcome.bind fun v => SameOutcome.bind fun t => lowerArm_same ih' hs.2 h _
      · exact hregion
    | «for» =>
      simp only [wellScoped, Bool.and_eq_true] at hs
      simp only [lowerStmt, hiddenAfter, reduceCtorEq, if_false, hbounds, evalInt_congr hs.1.1 h,
        evalInt_congr hs.1.2 h]
      have hbody : ∀ (σ : R) (v : ℤ) (a b : Env V), AgreeOff hidden a b → SameOutcome hidden
          (lowerStmts c σ (a.set loopvar (some ⟨c.ops.litInt v, true⟩)) body)
          (lowerStmts c σ (b.set loopvar (some ⟨c.ops.litInt v, true⟩)) body) := fun σ v a b hab =>
        (lowerStmts_same ih' hs.2 (hab.set loopvar _)).mono
          (List.Subset.trans (hiddenAfterAll_subset_self _ body)
            fun _ hn => List.mem_of_mem_filter hn)
      split_ifs with hknown
      · refine SameOutcome.bind fun lo => SameOutcome.bind fun hi => ?_
        split_ifs
        · exact .ok [] (h.set_same loopvar none)
        · exact (hbody _ lo _ _ h).map _ _ (fun us => us) fun a b hab => hab.set_same loopvar none
        · exact (unroll_same (hbody scale) _ h).map _ _ (fun us => us) fun a b hab => hab.set_same loopvar none
      · exact hregion
    | «while» | nrFunApp | «return» | «break» | «continue» | unsupported =>
      simpa [lowerStmt] using SameOutcome.error (V := V) (R := R) _

/-- A body sees the names in scope. -/
theorem body_same {ss : List Stmt} (hs : allWellScoped hidden ss = true)
    (h : AgreeOff hidden env env') :
    SameOutcome hidden (lowerStmts c scale env ss) (lowerStmts c scale env' ss) :=
  (lowerStmts_same (fun _ _ _ _ _ _ hs hab => lowerStmt_same hs hab) hs h).mono
    (hiddenAfterAll_subset_self hidden ss)

end TargetLoop

end Stanli
