import Mathlib.Algebra.Group.Torsion
import Mathlib.Analysis.SpecialFunctions.Exp
import Mathlib.Tactic.Ring
import Mathlib.Tactic.LinearCombination
import Stanli.Lowering.TargetLoopNames

/-!
# Folding a target loop

Under a scale `σ` a body pushes terms that sum to `σ * A + B`: what went through `push_target_term`
carries the scale and the log Jacobians do not.  The folded loop of `n` iterations therefore adds
`σ * n * A + B`, the unrolled one `n * (σ * A + B)`, and they differ by `n - 1` times the log Jacobians.
-/

namespace Stanli

namespace TargetLoop

open Mir

variable {V R : Type} {hidden : List Bytes} {env env' : Env V} {c : Context V R}

/-! ## Weights -/

/-- An outcome that depends on the scale through its terms alone, and on it affinely. -/
def Weighs [Semiring R] (f : R → Lower (Outcome V R)) : Prop :=
  (∃ e, ∀ σ, f σ = .error e) ∨
    ∃ (a : Env V) (A B : R), ∀ σ, ∃ ts, f σ = .ok (a, ts) ∧ ts.sum = σ * A + B

section Weighs

variable [CommSemiring R] {f : R → Lower (Outcome V R)}

lemma Weighs.const (x : Lower (Outcome V R)) : Weighs fun _ : R => x := by
  cases x with
  | error e => exact Or.inl ⟨e, fun _ => rfl⟩
  | ok r => exact Or.inr ⟨r.1, 0, r.2.sum, fun σ => ⟨r.2, rfl, by rw [mul_zero, zero_add]⟩⟩

lemma Weighs.bind {α : Type} {z : Lower α} {g : α → R → Lower (Outcome V R)}
    (h : ∀ a, Weighs (g a)) : Weighs fun σ => z >>= fun a => g a σ := by
  cases z with
  | error e => exact Or.inl ⟨e, fun _ => rfl⟩
  | ok a => exact h a

lemma Weighs.map (h : Weighs f) (F : Env V → Env V) :
    Weighs fun σ => f σ >>= fun r => pure (F r.1, r.2) := by
  rcases h with ⟨e, h⟩ | ⟨a, A, B, h⟩
  · exact Or.inl ⟨e, fun σ => by simp only [h σ]; rfl⟩
  · refine Or.inr ⟨F a, A, B, fun σ => ?_⟩
    obtain ⟨ts, hf, hsum⟩ := h σ
    exact ⟨ts, by simp only [hf]; rfl, hsum⟩

lemma Weighs.andThen (h : Weighs f) {g : R → Env V → Lower (Outcome V R)}
    (hg : ∀ a, Weighs fun σ => g σ a) : Weighs fun σ => TargetLoop.andThen (f σ) (g σ) := by
  rcases h with ⟨e, h⟩ | ⟨a, A, B, h⟩
  · exact Or.inl ⟨e, fun σ => by simp only [h σ]; rfl⟩
  rcases hg a with ⟨e, hg⟩ | ⟨b, A', B', hg⟩
  · refine Or.inl ⟨e, fun σ => ?_⟩
    obtain ⟨ts, hf, -⟩ := h σ
    have hgσ : g σ a = .error e := hg σ
    simp only [hf]
    rw [andThen_ok, hgσ]
    rfl
  · refine Or.inr ⟨b, A + A', B + B', fun σ => ?_⟩
    obtain ⟨ts, hf, hts⟩ := h σ
    obtain ⟨us, hgf, hus⟩ := hg σ
    refine ⟨ts ++ us, ?_, ?_⟩
    · have hgσ : g σ a = .ok (b, us) := hgf
      simp only [hf]
      rw [andThen_ok, hgσ]
      rfl
    · rw [List.sum_append, hts, hus]
      ring

/-- A multiplied scale multiplies what carries it. -/
lemma Weighs.scaled (h : Weighs f) (n : R) : Weighs fun σ => f (σ * n) := by
  rcases h with ⟨e, h⟩ | ⟨a, A, B, h⟩
  · exact Or.inl ⟨e, fun σ => h _⟩
  · refine Or.inr ⟨a, n * A, B, fun σ => ?_⟩
    obtain ⟨ts, hf, hsum⟩ := h (σ * n)
    exact ⟨ts, hf, by rw [hsum, mul_assoc]⟩

lemma lowerRegion_weighs (env : Env V) (s : Stmt) : Weighs fun σ => lowerRegion c σ env s := by
  refine Weighs.bind fun r => ?_
  by_cases ht : hasTargetPE s
  · refine Or.inr ⟨carryOut s env r.1, r.2.sum, 0, fun σ => ⟨pushTargetTerm σ r.2.sum, ?_, ?_⟩⟩
    · simp only [if_pos ht]
      rfl
    · simp [pushTargetTerm]
  · simp only [if_neg ht]
    exact Weighs.const _

lemma unroll_weighs {body : R → ℤ → Env V → Lower (Outcome V R)}
    (h : ∀ v a, Weighs fun σ => body σ v a) (vs : List ℤ) (env : Env V) :
    Weighs fun σ => unroll (body σ) vs env := by
  induction vs generalizing env with
  | nil => exact Weighs.const _
  | cons v vs ih => exact (h v env).andThen ih

lemma lowerStmts_weighs {ss : List Stmt} (h : ∀ s ∈ ss, ∀ a, Weighs fun σ => lowerStmt c σ a s)
    (env : Env V) : Weighs fun σ => lowerStmts c σ env ss := by
  induction ss generalizing env with
  | nil => exact Weighs.const _
  | cons s ss ih =>
    exact (h s (List.mem_cons_self ..) env).andThen (ih fun t ht => h t (List.mem_cons_of_mem _ ht))

lemma lowerArm_weighs {ss : List Stmt} (h : ∀ s ∈ ss, ∀ a, Weighs fun σ => lowerStmt c σ a s)
    (env : Env V) (k : ℕ) : Weighs fun σ => lowerArm c σ env ss k := by
  induction ss generalizing k with
  | nil => exact Weighs.const _
  | cons s ss ih =>
    cases k with
    | zero => exact h s (List.mem_cons_self ..) env
    | succ k => exact ih (fun t ht => h t (List.mem_cons_of_mem _ ht)) k

/-- A statement adds its increments under the scale and its log Jacobians without. -/
theorem lowerStmt_weighs (env : Env V) (s : Stmt) : Weighs fun σ => lowerStmt c σ env s := by
  induction s using Stmt.induction generalizing env with
  | step s ih =>
    have hregion : Weighs fun σ => lowerRegion c σ env s := lowerRegion_weighs env s
    obtain ⟨kind, declId, declType, declDataOnly, hasInit, init, readTransform, readDims, lhs, lhsIdx,
      rhs, target, fnName, fnArgs, checkTransform, checkVarName, writeTransform, loopvar, lower, upper,
      cond, body, raw⟩ := s
    simp only at ih
    cases kind with
    | block | sList => simpa only [lowerStmt] using lowerStmts_weighs ih env
    | targetPE =>
      simp only [lowerStmt]
      refine Weighs.bind fun v => Or.inr ⟨env, c.ops.sum v.1, v.2.sum, fun σ => ⟨_, rfl, ?_⟩⟩
      rw [List.sum_append, pushTargetTerm, List.sum_singleton, add_comm]
    | ifElse =>
      simp only [lowerStmt]
      split_ifs
      · exact Weighs.bind fun v => Weighs.bind fun t => lowerArm_weighs ih env _
      · exact hregion
    | «for» =>
      simp only [lowerStmt]
      split_ifs
      · refine Weighs.bind fun lo => Weighs.bind fun hi => ?_
        split_ifs
        · exact Weighs.const _
        · have hbody := lowerStmts_weighs ih (env.set loopvar (some ⟨c.ops.litInt lo, true⟩))
          exact (hbody.scaled _).map fun a => a.set loopvar none
        · have hbody : ∀ (v : ℤ) (a : Env V), Weighs fun σ =>
              lowerStmts c σ (a.set loopvar (some ⟨c.ops.litInt v, true⟩)) body :=
            fun v a => lowerStmts_weighs ih _
          exact (unroll_weighs hbody _ env).map fun a => a.set loopvar none
      · exact hregion
    | skip | decl | assignment =>
      simp only [lowerStmt]
      exact Weighs.const _
    | «while» | nrFunApp | «return» | «break» | «continue» | unsupported =>
      simp only [lowerStmt]
      exact Weighs.const _

lemma body_weighs (env : Env V) (ss : List Stmt) : Weighs fun σ => lowerStmts c σ env ss :=
  lowerStmts_weighs (fun s _ a => lowerStmt_weighs a s) env

end Weighs

/-! ## What the Jacobian calls add -/

/-- What the Jacobian calls that the body makes on the graph add to the target: a body that carries
the scale zero adds nothing else. -/
def directJacobians [Semiring R] (c : Context V R) (loopvar : Bytes) (lo : ℤ) (body : List Stmt)
    (env : Env V) : R :=
  match lowerStmts c 0 (env.set loopvar (some ⟨c.ops.litInt lo, true⟩)) body with
  | .ok r => r.2.sum
  | .error _ => 0

/-! ## The folded loop and the unrolled one -/

/-- The same error, or the same contribution to the target and the same bindings of the names in
scope. -/
inductive SameTarget [Semiring R] (hidden : List Bytes) :
    Lower (Outcome V R) → Lower (Outcome V R) → Prop
  | error (e : LowerError) : SameTarget hidden (.error e) (.error e)
  | ok {a b : Env V} {ts us : List R} (hsum : ts.sum = us.sum) (h : AgreeOff hidden a b) :
      SameTarget hidden (.ok (a, ts)) (.ok (b, us))

section Loop

variable [CommRing R] {loopvar : Bytes} {body : List Stmt} {scale : R}

lemma SameTarget.sum_eq {a b : Env V} {ts us : List R}
    (h : SameTarget hidden (.ok (a, ts)) (.ok (b, us))) : ts.sum = us.sum := by
  cases h with
  | ok hsum _ => exact hsum

lemma SameTarget.ok_iff {a b : Env V} {ts us : List R} (h : AgreeOff hidden a b) :
    SameTarget hidden (.ok (a, ts)) (.ok (b, us)) ↔ ts.sum = us.sum :=
  ⟨SameTarget.sum_eq, fun hsum => .ok hsum h⟩

lemma iterations_eq_cons {lo hi : ℤ} (h : lo < hi) :
    ∃ rest, iterations lo hi = lo :: rest ∧ ((hi - lo + 1).toNat : R) = rest.length + 1 := by
  obtain ⟨k, hk⟩ : ∃ k : ℕ, (hi - lo + 1).toNat = k + 1 := ⟨(hi - lo).toNat, by omega⟩
  refine ⟨((List.range k).map Nat.succ).map fun j : ℕ => lo + j, ?_, ?_⟩
  · rw [iterations, hk, List.range_succ_eq_map]
    simp
  · simp [hk]

/-- The first iteration, and with it every other, pushes the terms of the folded body. -/
lemma unroll_body {a : Env V} {ts : List R} {first : ℤ}
    (hs : allWellScoped hidden body = true) (hl : loopvar ∈ hidden)
    (hkeep : ∀ n ∉ hidden, ∀ env : Env V, Keeps n env (lowerStmts c scale env body))
    (hrun : lowerStmts c scale (env.set loopvar (some ⟨c.ops.litInt first, true⟩)) body = .ok (a, ts))
    (vs : List ℤ) (h : AgreeOff hidden env env') :
    ∃ b us, unroll (fun v env => lowerStmts c scale
        (env.set loopvar (some ⟨c.ops.litInt v, true⟩)) body) vs env' = .ok (b, us) ∧
      us.sum = vs.length * ts.sum ∧ AgreeOff hidden env b := by
  induction vs generalizing env' with
  | nil => exact ⟨env', [], rfl, by simp, h⟩
  | cons v vs ih =>
    have hsame : SameOutcome hidden (lowerStmts c scale _ body) (lowerStmts c scale _ body) :=
      body_same hs (h.set_hidden hl (some ⟨c.ops.litInt first, true⟩) (some ⟨c.ops.litInt v, true⟩))
    rw [hrun] at hsame
    obtain ⟨b, hb, hab⟩ : ∃ b, lowerStmts c scale
        (env'.set loopvar (some ⟨c.ops.litInt v, true⟩)) body = .ok (b, ts) ∧ AgreeOff hidden a b := by
      generalize lowerStmts c scale (env'.set loopvar (some ⟨c.ops.litInt v, true⟩)) body = x at hsame
      cases hsame with
      | ok _ hab => exact ⟨_, rfl, hab⟩
    -- the body leaves every name outside the hidden ones as it was before the loop
    have hagree : AgreeOff hidden env b := by
      intro n hn
      have hne : n ≠ loopvar := fun heq => hn (heq ▸ hl)
      exact ((hkeep n hn _ _ hrun).trans (Env.set_ne hne _)).symm.trans (hab n hn)
    obtain ⟨d, us, hd, hsum, hd'⟩ := ih hagree
    refine ⟨d, ts ++ us, ?_, ?_, hd'⟩
    · rw [unroll, hb, andThen_ok, hd]
      rfl
    · rw [List.sum_append, hsum, List.length_cons]
      push_cast
      ring

variable [IsAddTorsionFree R]

/-- A folded target loop is lowered like the unrolled one if and only if the log Jacobians that its
body pushes directly cancel. -/
theorem fold_sameTarget_iff (c : Context V R) (scale : R) (env : Env V)
    (hacc : repeatableTargetBody loopvar body = true)
    (hs : allWellScoped (allBoundNames body) body = true) {lo hi : ℤ} (hlt : lo < hi) :
    SameTarget (allBoundNames body)
        (foldRepeatableTarget c (fun scale env => lowerStmts c scale env body) scale loopvar lo hi env)
        (unrollLoop c (fun env => lowerStmts c scale env body) loopvar lo hi env) ↔
      directJacobians c loopvar lo body env = 0 := by
  obtain ⟨hidden, hsc, hl, hsub, hsub'⟩ := exists_hidden hacc hs
  obtain ⟨rest, hiter, hn⟩ := iterations_eq_cons (R := R) hlt
  have hassigned : allAssignedNames body ⊆ allBoundNames body := by
    rw [repeatableTargetBody, Bool.and_eq_true] at hacc
    exact List.Subset.trans
      (allAssignedNames_subset (fun _ _ _ h h' => assignedNames_subset h h') hs hacc.1)
      (allLocals_subset fun s _ => collectLoopLocals_subset s)
  have hkeep : ∀ (σ : R), ∀ n ∉ hidden, ∀ env : Env V, Keeps n env (lowerStmts c σ env body) :=
    fun σ n hn env => body_keeps (fun h => hn (hsub h)) (fun h => hn (hsub (hassigned h))) env
  rw [foldRepeatableTarget, unrollLoop, directJacobians, hiter, unroll]
  generalize hstart : env.set loopvar (some ⟨c.ops.litInt lo, true⟩) = start
  rcases body_weighs (c := c) start body with ⟨e, hw⟩ | ⟨a, A, B, hw⟩
  · have herr : ∀ σ, lowerStmts c σ start body = .error e := hw
    simp only [herr, andThen, bind, Except.bind]
    exact iff_of_true (.error e) trivial
  · obtain ⟨folded, hfolded, hfsum⟩ := hw (scale * ((hi - lo + 1).toNat : R))
    obtain ⟨ts, hts, htsum⟩ := hw scale
    obtain ⟨zeros, hzeros, hzsum⟩ := hw 0
    simp only at hfolded hts hzeros
    have hafter : AgreeOff hidden env a := by
      intro n hnot
      have hne : n ≠ loopvar := fun heq => hnot (heq ▸ hl)
      rw [← hstart] at hts
      exact ((hkeep scale n hnot _ _ hts).trans (Env.set_ne hne _)).symm
    obtain ⟨b, us, hus, husum, hb⟩ :=
      unroll_body (c := c) hsc hl (hkeep scale) (hstart ▸ hts) rest hafter
    simp only [hfolded, hts, hzeros, andThen_ok, hus, bind, Except.bind, pure, Except.pure]
    have hagree : AgreeOff (allBoundNames body) (a.set loopvar none) (b.set loopvar none) := by
      intro n hn'
      rw [Env.set, Env.set]
      split_ifs with heq
      · rfl
      · have hnot : n ∉ hidden := fun hmem => by
          rcases List.mem_cons.1 (hsub' hmem) with h | h
          · exact heq h
          · exact hn' h
        rw [← hafter n hnot, hb n hnot]
    rw [SameTarget.ok_iff hagree, List.sum_append, husum, hfsum, htsum, hzsum, zero_mul, zero_add, hn]
    have hdiff : scale * (rest.length + 1) * A + B = scale * A + B + rest.length * (scale * A + B) ↔
        (rest.length : R) * B = 0 := by
      constructor
      · intro h
        linear_combination -h
      · intro h
        linear_combination -h
    rw [hdiff, ← nsmul_eq_mul]
    have hpos : rest.length ≠ 0 := by
      intro h0
      have hlen := congrArg List.length hiter
      simp only [iterations, List.length_map, List.length_range, List.length_cons] at hlen
      omega
    exact smul_eq_zero_iff_right hpos

end Loop

/-! ## A loop with a Jacobian call -/

section JacobianLoop

inductive Scalar
  | int (i : ℤ)
  | real (x : ℝ)

/-- The lower bound transform over the reals: the exponential above the bound, whose log Jacobian is
the unconstrained value. -/
noncomputable def lowerBoundOps : Ops Scalar ℝ where
  litInt := .int
  litReal _ := .real 0
  call name _ := .error (.math name)
  transform
    | ⟨.lower, _, _, _⟩, [.real x, .int lb] => .ok (.real (Real.exp x + lb), x)
    | _, _ => .error (.math [])
  index _ := .error (.math [])
  assign _ _ v := .ok v
  fresh name _ := .error (.math name)
  truth
    | .int i => .ok (i ≠ 0)
    | .real _ => .error (.math [])
  toInt
    | .int i => .ok i
    | .real _ => .error (.math [])
  sum
    | .int i => i
    | .real x => x

noncomputable def lowerBoundContext : Context Scalar ℝ where
  ops := lowerBoundOps
  inWriteArray := false
  steps := 0
  folds _ _ := false
  evaluates _ _ := false
  boundsKnown _ _ := true
  folds_local _ _ _ _ _ _ := rfl
  evaluates_local _ _ _ _ _ _ := rfl
  boundsKnown_local _ _ _ _ _ _ := rfl

/-- `jacobian += lower_bound_jacobian(y, 0)`. -/
def jacobianBody : List Stmt :=
  [{ kind := .targetPE
     target :=
      { kind := .funApp
        name := ascii "lower_bound_jacobian"
        args := [{ kind := .var, name := ascii "y" }, { kind := .litInt, litI := 0 }] } }]

/-- `y` is one. -/
noncomputable def oneEnv : Env Scalar := fun n => if n = ascii "y" then some ⟨.real 1, false⟩ else none

end JacobianLoop

theorem fold_sameTarget_iff_jacobianBody :
    SameTarget (allBoundNames jacobianBody)
        (foldRepeatableTarget lowerBoundContext
          (fun scale env => lowerStmts lowerBoundContext scale env jacobianBody) 1 (ascii "i") 1 2 oneEnv)
        (unrollLoop lowerBoundContext (fun env => lowerStmts lowerBoundContext 1 env jacobianBody)
          (ascii "i") 1 2 oneEnv) ↔
      directJacobians lowerBoundContext (ascii "i") 1 jacobianBody oneEnv = 0 :=
  fold_sameTarget_iff lowerBoundContext 1 oneEnv (by decide) (by decide) (by decide)

/-- Two iterations add the log Jacobian twice; the folded body adds it once. -/
theorem fold_jacobianBody_differs :
    repeatableTargetBody (ascii "i") jacobianBody = true ∧
      ¬SameTarget (allBoundNames jacobianBody)
        (foldRepeatableTarget lowerBoundContext
          (fun scale env => lowerStmts lowerBoundContext scale env jacobianBody) 1 (ascii "i") 1 2 oneEnv)
        (unrollLoop lowerBoundContext (fun env => lowerStmts lowerBoundContext 1 env jacobianBody)
          (ascii "i") 1 2 oneEnv) := by
  refine ⟨by decide, fun h => ?_⟩
  have hfold : foldRepeatableTarget lowerBoundContext
      (fun scale env => lowerStmts lowerBoundContext scale env jacobianBody) 1 (ascii "i") 1 2 oneEnv =
      .ok (_, [1, (1 * ((2 : ℕ) : ℝ)) * (Real.exp 1 + ((0 : ℤ) : ℝ))]) := rfl
  have hunroll : unrollLoop lowerBoundContext
      (fun env => lowerStmts lowerBoundContext 1 env jacobianBody) (ascii "i") 1 2 oneEnv =
      .ok (_, [1, 1 * (Real.exp 1 + ((0 : ℤ) : ℝ)), 1, 1 * (Real.exp 1 + ((0 : ℤ) : ℝ))]) := rfl
  rw [hfold, hunroll] at h
  have hsum := h.sum_eq
  simp only [List.sum_cons, List.sum_nil] at hsum
  push_cast at hsum
  linarith

end TargetLoop

end Stanli
