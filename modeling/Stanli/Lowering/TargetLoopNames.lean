import Mathlib.Tactic.Tauto
import Stanli.Lowering.TargetLoopScope

/-!
# The names of a target loop

A statement changes the names it binds or assigns and no others; an accepted body assigns its own locals,
and does not see the iterator of the loop.
-/

namespace Stanli

namespace TargetLoop

open Mir

variable {V R : Type} {hidden locals : List Bytes} {env env' : Env V} {c : Context V R}

/-! ## Names a statement leaves alone -/

lemma boundNames_mem {s t : Stmt} {n : Bytes} (ht : t ∈ s.body) (h : n ∉ boundNames s) :
    n ∉ boundNames t := by
  have hmem : ∀ {ss : List Stmt}, t ∈ ss → n ∈ boundNames t → n ∈ allBoundNames ss := by
    intro ss
    induction ss with
    | nil => simp
    | cons u ss ih =>
      rw [allBoundNames, List.mem_append]
      rintro hu hn
      rcases List.mem_cons.1 hu with rfl | hu
      · exact Or.inl hn
      · exact Or.inr (ih hu hn)
  intro hn
  apply h
  obtain ⟨⟩ := s
  rw [boundNames]
  exact List.mem_append_right _ (hmem ht hn)

lemma assignedNames_mem {s t : Stmt} {n : Bytes} (ht : t ∈ s.body) (h : n ∉ assignedNames s) :
    n ∉ assignedNames t := by
  have hmem : ∀ {ss : List Stmt}, t ∈ ss → n ∈ assignedNames t → n ∈ allAssignedNames ss := by
    intro ss
    induction ss with
    | nil => simp
    | cons u ss ih =>
      rw [allAssignedNames, List.mem_append]
      rintro hu hn
      rcases List.mem_cons.1 hu with rfl | hu
      · exact Or.inl hn
      · exact Or.inr (ih hu hn)
  intro hn
  apply h
  obtain ⟨⟩ := s
  rw [assignedNames]
  exact List.mem_append_right _ (hmem ht hn)

lemma andThen_ok (a : Env V) (ts : List R) (f : Env V → Lower (Outcome V R)) :
    andThen (.ok (a, ts)) f = f a >>= fun r => pure (r.1, ts ++ r.2) := rfl

/-- The name keeps its binding if the lowering succeeds. -/
def Keeps (n : Bytes) (env : Env V) (x : Lower (Outcome V R)) : Prop :=
  ∀ r, x = .ok r → r.1 n = env n

variable {n : Bytes}

lemma Keeps.ok {r : Outcome V R} (h : r.1 n = env n) : Keeps n env (.ok r) := by
  rintro _ ⟨⟩
  exact h

lemma Keeps.error (e : LowerError) : Keeps n env (.error e : Lower (Outcome V R)) := by
  rintro r ⟨⟩

lemma Keeps.bind {α : Type} {z : Lower α} {f : α → Lower (Outcome V R)}
    (h : ∀ a, Keeps n env (f a)) : Keeps n env (z >>= f) := by
  cases z with
  | error e => exact .error e
  | ok a => exact h a

lemma Keeps.andThen {x : Lower (Outcome V R)} (hx : Keeps n env x) {f : Env V → Lower (Outcome V R)}
    (hf : ∀ a, Keeps n a (f a)) : Keeps n env (TargetLoop.andThen x f) := by
  intro r hr
  rw [TargetLoop.andThen, bind_eq_ok_iff] at hr
  obtain ⟨p, hp, hr⟩ := hr
  obtain ⟨q, hq, hr⟩ := bind_eq_ok_iff.1 hr
  obtain rfl : (q.1, p.2 ++ q.2) = r := by simpa [pure, Except.pure] using hr
  exact (hf _ q hq).trans (hx p hp)

lemma Keeps.map {x : Lower (Outcome V R)} (hx : Keeps n env x) {F : Env V → Env V}
    (hF : ∀ a, F a n = a n) (T : List R → List R) :
    Keeps n env (x >>= fun r => pure (F r.1, T r.2)) := by
  intro r hr
  obtain ⟨p, hp, hr⟩ := bind_eq_ok_iff.1 hr
  obtain rfl : (F p.1, T p.2) = r := by simpa [pure, Except.pure] using hr
  exact (hF p.1).trans (hx p hp)

lemma Env.set_ne {name : Bytes} (h : n ≠ name) (b : Option (Binding V)) : env.set name b n = env n :=
  if_neg h

lemma unroll_keeps {body : ℤ → Env V → Lower (Outcome V R)} (h : ∀ v a, Keeps n a (body v a))
    (vs : List ℤ) (env : Env V) : Keeps n env (unroll body vs env) := by
  induction vs generalizing env with
  | nil => exact .ok rfl
  | cons v vs ih => exact (h v env).andThen ih

section Graph

variable [Semiring R] {scale : R}

lemma lowerRegion_keeps {s : Stmt} (h : n ∉ assignedNames s) :
    Keeps n env (lowerRegion c scale env s) := by
  rw [lowerRegion]
  exact Keeps.bind fun r => .ok (if_neg fun hn => h hn.1)

lemma lowerStmts_keeps {ss : List Stmt}
    (h : ∀ s ∈ ss, ∀ (σ : R) (a : Env V), Keeps n a (lowerStmt c σ a s)) (env : Env V) :
    Keeps n env (lowerStmts c scale env ss) := by
  induction ss generalizing env with
  | nil => exact .ok rfl
  | cons s ss ih =>
    rw [lowerStmts]
    exact (h s (List.mem_cons_self ..) scale env).andThen
      (ih fun t ht => h t (List.mem_cons_of_mem _ ht))

lemma lowerArm_keeps {ss : List Stmt}
    (h : ∀ s ∈ ss, ∀ (σ : R) (a : Env V), Keeps n a (lowerStmt c σ a s)) (env : Env V) (k : ℕ) :
    Keeps n env (lowerArm c scale env ss k) := by
  induction ss generalizing k with
  | nil => exact .ok rfl
  | cons s ss ih =>
    cases k with
    | zero => exact h s (List.mem_cons_self ..) scale env
    | succ k => exact ih (fun t ht => h t (List.mem_cons_of_mem _ ht)) k

/-- A statement changes the names it binds or assigns. -/
theorem lowerStmt_keeps {s : Stmt} (hb : n ∉ boundNames s) (ha : n ∉ assignedNames s) :
    Keeps n env (lowerStmt c scale env s) := by
  induction s using Stmt.induction generalizing env scale with
  | step s ih =>
    have ih' : ∀ t ∈ s.body, ∀ (σ : R) (a : Env V), Keeps n a (lowerStmt c σ a t) :=
      fun t ht σ a => ih t ht (boundNames_mem ht hb) (assignedNames_mem ht ha)
    have hregion : Keeps n env (lowerRegion c scale env s) := lowerRegion_keeps ha
    obtain ⟨kind, declId, declType, declDataOnly, hasInit, init, readTransform, readDims, lhs, lhsIdx,
      rhs, target, fnName, fnArgs, checkTransform, checkVarName, writeTransform, loopvar, lower, upper,
      cond, body, raw⟩ := s
    simp only at ih'
    cases kind with
    | skip =>
      simp only [lowerStmt]
      exact .ok rfl
    | block | sList => simpa only [lowerStmt] using lowerStmts_keeps ih' env
    | targetPE =>
      simp only [lowerStmt]
      exact Keeps.bind fun v => .ok rfl
    | decl =>
      have hne : n ≠ declId := by
        rintro rfl
        simp [boundNames] at hb
      simp only [lowerStmt, declare]
      refine Keeps.bind fun extents => ?_
      cases hasInit with
      | false => exact Keeps.bind fun v => .ok (Env.set_ne hne _)
      | true => exact Keeps.bind fun v => .ok (Env.set_ne hne _)
    | assignment =>
      have hne : n ≠ lhs := by
        rintro rfl
        simp [assignedNames] at ha
      simp only [lowerStmt, assign]
      refine Keeps.bind fun v => Keeps.bind fun at_ => ?_
      cases env lhs with
      | none => exact .error _
      | some old => exact Keeps.bind fun next => .ok (Env.set_ne hne _)
    | ifElse =>
      simp only [lowerStmt]
      split_ifs
      · exact Keeps.bind fun v => Keeps.bind fun t => lowerArm_keeps ih' env _
      · exact hregion
    | «for» =>
      have hne : n ≠ loopvar := by
        rintro rfl
        simp [boundNames] at hb
      have hbody : ∀ (σ : R) (v : ℤ) (a : Env V),
          Keeps n a (lowerStmts c σ (a.set loopvar (some ⟨c.ops.litInt v, true⟩)) body) := by
        intro σ v a r hr
        exact (lowerStmts_keeps ih' _ r hr).trans (Env.set_ne hne _)
      simp only [lowerStmt]
      split_ifs
      · refine Keeps.bind fun lo => Keeps.bind fun hi => ?_
        split_ifs
        · exact .ok (Env.set_ne hne _)
        · exact (hbody _ lo env).map (fun a => Env.set_ne hne _) fun us => us
        · exact (unroll_keeps (hbody scale) _ env).map (fun a => Env.set_ne hne _) fun us => us
      · exact hregion
    | «while» | nrFunApp | «return» | «break» | «continue» | unsupported =>
      simpa only [lowerStmt] using Keeps.error _

lemma body_keeps {ss : List Stmt} (hb : n ∉ allBoundNames ss) (ha : n ∉ allAssignedNames ss)
    (env : Env V) : Keeps n env (lowerStmts c scale env ss) := by
  have hblock : Keeps n env (lowerStmt c scale env { kind := .block, body := ss }) :=
    lowerStmt_keeps (by simpa [boundNames] using hb) (by simpa [assignedNames] using ha)
  simpa only [lowerStmt] using hblock

end Graph

/-! ## The names of an accepted body -/

lemma allAssignedNames_subset {ss : List Stmt} {loopvar : Bytes}
    (h : ∀ s ∈ ss, ∀ hidden, wellScoped hidden s = true → repeatableTargetStmt loopvar locals s = true →
      assignedNames s ⊆ locals)
    (hs : allWellScoped hidden ss = true) (hr : allRepeatable loopvar locals ss = true) :
    allAssignedNames ss ⊆ locals := by
  induction ss generalizing hidden with
  | nil => exact List.nil_subset _
  | cons s ss ih =>
    rw [allWellScoped, Bool.and_eq_true] at hs
    rw [allRepeatable, Bool.and_eq_true] at hr
    rw [allAssignedNames]
    exact List.append_subset.2 ⟨h s (List.mem_cons_self ..) _ hs.1 hr.1,
      ih (fun t ht => h t (List.mem_cons_of_mem _ ht)) hs.2 hr.2⟩

lemma armsAssignedNames_subset {ss : List Stmt} {loopvar : Bytes}
    (h : ∀ s ∈ ss, ∀ hidden, wellScoped hidden s = true → repeatableTargetStmt loopvar locals s = true →
      assignedNames s ⊆ locals)
    (hs : armsWellScoped hidden ss = true) (hr : allRepeatable loopvar locals ss = true) :
    allAssignedNames ss ⊆ locals := by
  induction ss with
  | nil => exact List.nil_subset _
  | cons s ss ih =>
    rw [armsWellScoped, Bool.and_eq_true] at hs
    rw [allRepeatable, Bool.and_eq_true] at hr
    rw [allAssignedNames]
    exact List.append_subset.2 ⟨h s (List.mem_cons_self ..) _ hs.1 hr.1,
      ih (fun t ht => h t (List.mem_cons_of_mem _ ht)) hs.2 hr.2⟩

/-- An accepted statement assigns the locals of the loop. -/
lemma assignedNames_subset {s : Stmt} {loopvar : Bytes} (hs : wellScoped hidden s = true)
    (hr : repeatableTargetStmt loopvar locals s = true) : assignedNames s ⊆ locals := by
  induction s using Stmt.induction generalizing hidden with
  | step s ih =>
    have ih' : ∀ t ∈ s.body, ∀ hid, wellScoped hid t = true →
        repeatableTargetStmt loopvar locals t = true → assignedNames t ⊆ locals :=
      fun t ht hid h h' => ih t ht h h'
    obtain ⟨kind, declId, declType, declDataOnly, hasInit, init, readTransform, readDims, lhs, lhsIdx,
      rhs, target, fnName, fnArgs, checkTransform, checkVarName, writeTransform, loopvar', lower, upper,
      cond, body, raw⟩ := s
    simp only at ih'
    cases kind with
    | block | sList =>
      simp only [wellScoped] at hs
      simp only [repeatableTargetStmt] at hr
      simpa [assignedNames] using allAssignedNames_subset ih' hs hr
    | skip | targetPE | decl =>
      simp only [wellScoped, Bool.and_eq_true, List.isEmpty_iff] at hs
      obtain rfl : body = [] := by tauto
      simp [assignedNames, allAssignedNames]
    | assignment =>
      simp only [wellScoped, Bool.and_eq_true, List.isEmpty_iff] at hs
      obtain rfl : body = [] := by tauto
      simp only [repeatableTargetStmt, Bool.and_eq_true, List.contains_eq_mem, decide_eq_true_eq] at hr
      simpa [assignedNames, allAssignedNames] using hr.1.1
    | ifElse =>
      simp only [wellScoped, Bool.and_eq_true] at hs
      simp only [repeatableTargetStmt, Bool.and_eq_true] at hr
      simpa [assignedNames] using armsAssignedNames_subset ih' hs.2 hr.2
    | «for» =>
      simp only [wellScoped, Bool.and_eq_true] at hs
      simp only [repeatableTargetStmt, Bool.and_eq_true] at hr
      simpa [assignedNames] using allAssignedNames_subset ih' hs.2 hr.2
    | «while» | nrFunApp | «return» | «break» | «continue» | unsupported =>
      simp [repeatableTargetStmt] at hr

lemma allLocals_subset {ss : List Stmt} (h : ∀ s ∈ ss, collectLoopLocals s ⊆ boundNames s) :
    collectAllLocals ss ⊆ allBoundNames ss := by
  induction ss with
  | nil => exact List.nil_subset _
  | cons s ss ih =>
    rw [collectAllLocals, allBoundNames]
    apply List.append_subset.2
    exact ⟨List.subset_append_of_subset_left _ (h s (List.mem_cons_self ..)),
      List.subset_append_of_subset_right _ (ih fun t ht => h t (List.mem_cons_of_mem _ ht))⟩

lemma collectLoopLocals_subset (s : Stmt) : collectLoopLocals s ⊆ boundNames s := by
  induction s using Stmt.induction with
  | step s ih =>
    have ih' := allLocals_subset ih
    obtain ⟨⟩ := s
    rw [collectLoopLocals, boundNames]
    apply List.append_subset.2
    refine ⟨?_, List.subset_append_of_subset_right _ ih'⟩
    split_ifs <;> simp_all

/-! ## The iterator -/

lemma inScope_cons {e : Expr} {loopvar : Bytes} (hs : inScope hidden e = true)
    (hr : repeatableTargetExpr loopvar e = true) : inScope (loopvar :: hidden) e = true := by
  rw [repeatableTargetExpr, Bool.and_eq_true, Bool.not_eq_true'] at hr
  rw [inScope_iff] at hs ⊢
  intro n hn
  rcases List.mem_cons.1 hn with rfl | hn
  · exact hr.1
  · exact hs n hn

lemma all_inScope_cons {es : List Expr} {loopvar : Bytes} (hs : es.all (inScope hidden) = true)
    (hr : es.all (repeatableTargetExpr loopvar) = true) :
    es.all (inScope (loopvar :: hidden)) = true := by
  rw [List.all_eq_true] at hs hr ⊢
  exact fun e he => inScope_cons (hs e he) (hr e he)

lemma filter_cons_ne {name loopvar : Bytes} (h : loopvar ≠ name) :
    (loopvar :: hidden).filter (· ≠ name) = loopvar :: hidden.filter (· ≠ name) := by
  simp [h]

lemma hiddenAfterAll_cons {ss : List Stmt} {loopvar : Bytes}
    (h : ∀ s ∈ ss, ∀ hidden, hiddenAfter (loopvar :: hidden) s = loopvar :: hiddenAfter hidden s) :
    hiddenAfterAll (loopvar :: hidden) ss = loopvar :: hiddenAfterAll hidden ss := by
  induction ss generalizing hidden with
  | nil => rfl
  | cons s ss ih =>
    rw [hiddenAfterAll, hiddenAfterAll, h s (List.mem_cons_self ..),
      ih fun t ht => h t (List.mem_cons_of_mem _ ht)]

lemma hiddenAfter_cons {s : Stmt} {loopvar : Bytes} (h : loopvar ∉ boundNames s) :
    hiddenAfter (loopvar :: hidden) s = loopvar :: hiddenAfter hidden s := by
  induction s using Stmt.induction generalizing hidden with
  | step s ih =>
    have ih' : ∀ t ∈ s.body, ∀ hid, hiddenAfter (loopvar :: hid) t = loopvar :: hiddenAfter hid t :=
      fun t ht hid => ih t ht (boundNames_mem ht h)
    obtain ⟨⟩ := s
    rw [hiddenAfter, hiddenAfter]
    split_ifs with hd hl
    · rw [boundNames, if_pos hd] at h
      exact filter_cons_ne (by simpa using fun heq => h (by simp [heq]))
    · exact hiddenAfterAll_cons ih'
    · rfl

lemma allWellScoped_cons {ss : List Stmt} {loopvar : Bytes}
    (h : ∀ s ∈ ss, ∀ hidden, wellScoped hidden s = true → repeatableTargetStmt loopvar locals s = true →
      wellScoped (loopvar :: hidden) s = true)
    (hb : loopvar ∉ allBoundNames ss) (hs : allWellScoped hidden ss = true)
    (hr : allRepeatable loopvar locals ss = true) : allWellScoped (loopvar :: hidden) ss = true := by
  induction ss generalizing hidden with
  | nil => rfl
  | cons s ss ih =>
    rw [allWellScoped, Bool.and_eq_true] at hs
    rw [allRepeatable, Bool.and_eq_true] at hr
    rw [allBoundNames, List.mem_append, not_or] at hb
    rw [allWellScoped, Bool.and_eq_true, hiddenAfter_cons hb.1]
    exact ⟨h s (List.mem_cons_self ..) _ hs.1 hr.1,
      ih (fun t ht => h t (List.mem_cons_of_mem _ ht)) hb.2 hs.2 hr.2⟩

lemma armsWellScoped_cons {ss : List Stmt} {loopvar : Bytes}
    (h : ∀ s ∈ ss, ∀ hidden, wellScoped hidden s = true → repeatableTargetStmt loopvar locals s = true →
      wellScoped (loopvar :: hidden) s = true)
    (hs : armsWellScoped hidden ss = true) (hr : allRepeatable loopvar locals ss = true) :
    armsWellScoped (loopvar :: hidden) ss = true := by
  induction ss with
  | nil => rfl
  | cons s ss ih =>
    rw [armsWellScoped, Bool.and_eq_true] at hs
    rw [allRepeatable, Bool.and_eq_true] at hr
    rw [armsWellScoped, Bool.and_eq_true]
    exact ⟨h s (List.mem_cons_self ..) _ hs.1 hr.1,
      ih (fun t ht => h t (List.mem_cons_of_mem _ ht)) hs.2 hr.2⟩

/-- An accepted statement does not see the iterator. -/
lemma wellScoped_cons {s : Stmt} {loopvar : Bytes} (hl : loopvar ∉ locals) (hb : loopvar ∉ boundNames s)
    (hs : wellScoped hidden s = true) (hr : repeatableTargetStmt loopvar locals s = true) :
    wellScoped (loopvar :: hidden) s = true := by
  induction s using Stmt.induction generalizing hidden with
  | step s ih =>
    have ih' : ∀ t ∈ s.body, ∀ hid, wellScoped hid t = true →
        repeatableTargetStmt loopvar locals t = true → wellScoped (loopvar :: hid) t = true :=
      fun t ht hid h h' => ih t ht (boundNames_mem ht hb) h h'
    obtain ⟨kind, declId, declType, declDataOnly, hasInit, init, readTransform, readDims, lhs, lhsIdx,
      rhs, target, fnName, fnArgs, checkTransform, checkVarName, writeTransform, loopvar', lower, upper,
      cond, body, raw⟩ := s
    simp only at ih'
    cases kind with
    | skip => simpa only [wellScoped] using hs
    | block | sList =>
      simp only [wellScoped] at hs ⊢
      simp only [repeatableTargetStmt] at hr
      exact allWellScoped_cons ih' (by simpa [boundNames] using hb) hs hr
    | targetPE =>
      simp only [wellScoped, Bool.and_eq_true] at hs ⊢
      simp only [repeatableTargetStmt] at hr
      exact ⟨hs.1, inScope_cons hs.2 hr⟩
    | decl =>
      simp only [wellScoped, Bool.and_eq_true] at hs ⊢
      simp only [repeatableTargetStmt, Bool.and_eq_true] at hr
      refine ⟨⟨hs.1.1, all_inScope_cons hs.1.2 hr.1.2⟩, ?_⟩
      cases hasInit with
      | false => rfl
      | true => simpa using inScope_cons (by simpa using hs.2) (by simpa using hr.2)
    | assignment =>
      simp only [wellScoped, Bool.and_eq_true, Bool.not_eq_true', List.contains_eq_mem,
        decide_eq_false_iff_not] at hs ⊢
      simp only [repeatableTargetStmt, Bool.and_eq_true, List.contains_eq_mem, decide_eq_true_eq] at hr
      refine ⟨⟨⟨hs.1.1.1, ?_⟩, inScope_cons hs.1.2 hr.1.2⟩, all_inScope_cons hs.2 hr.2⟩
      rw [List.mem_cons, not_or]
      refine ⟨?_, hs.1.1.2⟩
      rintro rfl
      exact hl hr.1.1
    | ifElse =>
      simp only [wellScoped, Bool.and_eq_true] at hs ⊢
      simp only [repeatableTargetStmt, Bool.and_eq_true] at hr
      exact ⟨inScope_cons hs.1 hr.1, armsWellScoped_cons ih' hs.2 hr.2⟩
    | «for» =>
      simp only [wellScoped, Bool.and_eq_true] at hs ⊢
      simp only [repeatableTargetStmt, Bool.and_eq_true] at hr
      simp only [boundNames, reduceCtorEq, if_false, if_true, List.singleton_append, List.mem_cons,
        not_or] at hb
      refine ⟨⟨inScope_cons hs.1.1 hr.1.1, inScope_cons hs.1.2 hr.1.2⟩, ?_⟩
      rw [filter_cons_ne hb.1]
      exact allWellScoped_cons ih' hb.2 hs.2 hr.2
    | «while» | nrFunApp | «return» | «break» | «continue» | unsupported =>
      simp [repeatableTargetStmt] at hr

/-- The names an accepted body hides together with the iterator. -/
lemma exists_hidden {body : List Stmt} {loopvar : Bytes}
    (hacc : repeatableTargetBody loopvar body = true)
    (hs : allWellScoped (allBoundNames body) body = true) :
    ∃ hidden, allWellScoped hidden body = true ∧ loopvar ∈ hidden ∧ allBoundNames body ⊆ hidden ∧
      hidden ⊆ loopvar :: allBoundNames body := by
  rw [repeatableTargetBody, Bool.and_eq_true] at hacc
  by_cases hmem : loopvar ∈ allBoundNames body
  · exact ⟨_, hs, hmem, List.Subset.refl _, List.subset_cons_self _ _⟩
  · refine ⟨loopvar :: allBoundNames body, ?_, List.mem_cons_self .., List.subset_cons_self _ _,
      List.Subset.refl _⟩
    have hl : loopvar ∉ collectAllLocals body := fun h =>
      hmem (allLocals_subset (fun s _ => collectLoopLocals_subset s) h)
    refine allWellScoped_cons (fun s hmem' hid h h' => wellScoped_cons hl ?_ h h') hmem hs hacc.1
    exact boundNames_mem (s := { kind := .block, body }) hmem' (by simpa [boundNames] using hmem)

end TargetLoop

end Stanli
