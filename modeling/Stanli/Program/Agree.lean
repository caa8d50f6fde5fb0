import Stanli.Program.Reverse

/-!
# What a run depends on

An instruction depends on the registers it reads and on no others (`exec_agree`), and so does its
pullback (`pulled_agree`).  Where every read is initialised two runs from files that agree on the
live-ins take the same path, end alike and have the same adjoints: what else the files hold does not
matter (`run_agree`, `pathAdjoint_agree`).
-/

namespace Stanli

open Program

/-- A kernel writes its whole output, and its backward reads no scratch that the forward did not
write. -/
structure StanMath.WritesOutputs {V E S : Type*} (M : StanMath V E S) : Prop where
  out : ∀ f shape ins s r, M.forward f shape ins s = .ok r → shape.outLen ≤ r.1.1.length
  scratch : ∀ (call : Call) (f g : ℕ) (ins : List (List V)) (s : S) (r : (List V × List V) × S),
    call.forward = some f → call.backward = some g → M.forward f call.shape ins s = .ok r →
    ∀ out scratch scratch' adj, scratch.length = call.scratch.len →
      scratch'.length = call.scratch.len → (∀ j < r.1.2.length, scratch[j]? = scratch'[j]?) →
      M.backward g call.shape ins out scratch adj = M.backward g call.shape ins out scratch' adj

/-- The partials of a scalar rule depend on the operands it reads. -/
lemma StanMath.partials_congr {V E S : Type*} [Field V] (M : StanMath V E S) {code : Code}
    (h : code.elementwise = true) (law : ℕ) (x out : V) {y z y' z' : V}
    (hb : code.has .readB = true → y = y') (hc : code.has .readC = true → z = z') :
    M.partials code law x y z out = M.partials code law x y' z' out := by
  cases code with
  | add | sub | mul | div | pow | fmax | fmin | lse2 | logDiffExp | lmultiply => rw [hb rfl]; rfl
  | logMix | fma => rw [hb rfl, hc rfl]
  | neg | exp | log | sqrt | square | inv | fabs | invLogit | log1m | log1pExp | tanh | erfc | log1p
    | log1mExp | invSquare => rfl
  | _ => exact absurd h (by decide)

namespace IslandProg

variable {V E S : Type*} [Field V] {R : Registry} {p : IslandProg V} {M : StanMath V E S} {k : ℕ}
  {I : Instr} {D : ℕ → Prop} {s t : File V S}

/-! ## The pullback -/

/-- The contributions of an instruction depend on what it read and on what it wrote. -/
lemma jacobian_agree (h : p.Checked R k I) (hR : M.toRegistry = R) {x y x' y' : ℕ → V}
    (hx : ∀ r ∈ p.readRegs R I, x r = x' r) (hy : ∀ r ∈ p.defines I, y r = y' r)
    (hcall : I.code ≠ .call) (hsub : I.code = .range → I.sub.elementwise = true) :
    I.jacobian M x y = I.jacobian M x' y' := by
  have hreg : ∀ {j i : ℕ}, I.code ≠ .dynIndex → I.code ≠ .density → j < 3 → I.reads j = true →
      i < I.inputLen j → x (I.operand j + i) = x' (I.operand j + i) :=
    fun hc hden hj hread hi => hx _ (mem_readRegs hcall hden hc hj hread hi)
  have hout : ∀ i < I.outputLen, y (I.dst + i) = y' (I.dst + i) := fun i hi =>
    hy _ ((mem_defines hcall).2 ⟨Nat.le_add_right .., Nat.add_lt_add_left hi _⟩)
  have hrun : I.code ≠ .dynIndex → I.code ≠ .density → I.reads 0 = true → I.inputLen 0 = I.len →
      ∀ i < I.len, x (I.a + i) = x' (I.a + i) := fun hc hden hread hin i hi =>
    hreg (j := 0) hc hden (by omega) hread (hin ▸ hi)
  have hlen := h.plain.kind.outputLen
  cases h.plain.kind with
  | scalar hc =>
    by_cases hel : I.code.elementwise = true
    · obtain ⟨-, hden, hext, hdyn, hrange, hrule, hone, hin⟩ := elementwise_instr hel
      have hread : I.reads 0 = true := by simp [Instr.reads, hrule, Code.elementwise.noInputs hel]
      have ha := hreg (j := 0) (i := 0) hdyn hden (by omega) hread (by rw [hin]; omega)
      have hd := hout 0 (by omega)
      simp only [Instr.operand, Nat.add_zero] at ha hd
      rw [jacobian_of_elementwise hel, jacobian_of_elementwise hel, ha, hd]
      exact congrArg _ (M.partials_congr hel I.len (x' I.a) (y' I.dst)
        (fun hb => hreg (j := 1) (i := 0) hdyn hden (by omega)
          (show I.rule.has .readB = true by rw [hrule]; exact hb) (by rw [hin]; omega))
        fun hb => hreg (j := 2) (i := 0) hdyn hden (by omega)
          (show I.rule.has .readC = true by rw [hrule]; exact hb) (by rw [hin]; omega))
    · have hdis : I.code.isDiscrete = true := by simpa [Code.isScalar, hel] using hc
      cases hcode : I.code <;> rw [hcode] at hdis <;> first
        | exact absurd hdis (by decide)
        | simp [Instr.jacobian, hcode, Code.elementwise]
  | const hc | fill hc | constr hc | jz hc | jmp hc | reject hc =>
    simp [Instr.jacobian, hc, Code.elementwise]
  | call hc => exact absurd hc hcall
  | mov hc | movr hc => simp only [Instr.jacobian, hc]
  | dynIndex hc =>
    simp only [Instr.jacobian, hc]
    rw [hx _ (mem_readRegs_of_dynIndex hc (Or.inl rfl))]
  | extremaRange hc =>
    have hread : (Span.mk I.a I.len).read x = (Span.mk I.a I.len).read x' := by
      refine List.map_congr_left fun r hr => ?_
      obtain ⟨i, hi, rfl⟩ := List.mem_map.1 hr
      exact hrun (by simp [hc]) (by simp [hc]) (by simp [Instr.reads, Instr.rule, hc, Code.has, Code.flags])
        (by simp [Instr.inputLen, hc, Code.has, Code.flags]) i (List.mem_range.1 hi)
    simp only [Instr.jacobian, hc, hread]
  | logRange hc | lseRange hc =>
    simp only [Instr.jacobian, hc]
    refine List.map_congr_left fun i hi => ?_
    have ha := hrun (by simp [hc]) (by simp [hc]) (by simp [Instr.reads, Instr.rule, hc, Code.has, Code.flags])
      (by simp [Instr.inputLen, hc, Code.has, Code.flags]) i (List.mem_range.1 hi)
    have hd := hout 0
    simp [hlen, hc] at hd
    simp only [ha, hd]
  | expRange hc =>
    simp only [Instr.jacobian, hc]
    refine List.map_congr_left fun i hi => ?_
    rw [hout i (by rw [hlen]; simpa [hc] using hi)]
  | softmax hc =>
    simp only [Instr.jacobian, hc]
    refine List.flatMap_congr fun j hj => List.map_congr_left fun i hi => ?_
    rw [hout i (by rw [hlen]; simpa [hc] using hi), hout j (by rw [hlen]; simpa [hc] using hj)]
  | dot hc =>
    simp only [Instr.jacobian, hc]
    refine List.flatMap_congr fun i hi => ?_
    have ha := hrun (by simp [hc]) (by simp [hc]) (by simp [Instr.reads, Instr.rule, hc, Code.has, Code.flags])
      (by simp [Instr.inputLen, hc, Code.has, Code.flags]) i (List.mem_range.1 hi)
    have hb := hreg (j := 1) (i := i) (by simp [hc]) (by simp [hc]) (by omega)
      (by simp [Instr.reads, Instr.rule, hc, Code.has, Code.flags])
      (by simpa [Instr.inputLen, hc, Code.has, Code.flags] using hi)
    simp only [Instr.operand] at hb
    rw [ha, hb]
  | density hc =>
    have hargs : (I.densityArgs M.toRegistry).map x = (I.densityArgs M.toRegistry).map x' :=
      List.map_congr_left fun r hr => hx r (by rw [readRegs, if_pos hc, ← hR]; exact hr)
    simp only [Instr.jacobian, hc, hargs]
  | range hc =>
    have hrule : I.rule = I.sub := if_pos hc
    have hel := hsub hc
    simp only [Instr.jacobian, hc]
    refine List.flatMap_congr fun i hi => ?_
    rw [List.mem_range] at hi
    have hval : ∀ j < 3, I.reads j = true →
        x (I.operand j + I.stride j * i) = x' (I.operand j + I.stride j * i) := fun j hj hread =>
      hreg (by simp [hc]) (by simp [hc]) hj hread (stride_lt hc j hi)
    have h0 := hval 0 (by omega) (by simp [Instr.reads, hrule, Code.elementwise.noInputs hel])
    simp only [Instr.operand] at h0
    rw [h0, hout i (by rw [hlen]; simpa [hc] using hi)]
    exact congrArg _ (M.partials_congr hel I.law _ _
      (fun hb => hval 1 (by omega) (show I.rule.has .readB = true by rw [hrule]; exact hb))
      fun hb => hval 2 (by omega) (show I.rule.has .readC = true by rw [hrule]; exact hb))

/-- The pullback of an instruction depends on the registers it reads. -/
lemma pulled_agree (h : p.Checked R k I) (hR : M.toRegistry = R)
    (hW : I.code = .call → M.WritesOutputs)
    (hrej : I.code ≠ .reject) (hD : ∀ r ∈ p.readRegs R I, D r) (hst : AgreeOn D s t)
    {s' t' : File V S} (hs : p.exec M I s = .ok s') (ht : p.exec M I t = .ok t') (seed : ℕ → V) :
    p.pulled M I s.reg s'.reg seed = p.pulled M I t.reg t'.reg seed := by
  have hagree := exec_agree h.plain hR (fun hc => Or.inl (hW hc).out) hrej hD hst
  rw [hs, ht] at hagree
  unfold pulled
  split
  · rename_i hc
    obtain ⟨call, hget, hf, hg, -⟩ := h.call hc
    obtain ⟨f, hf⟩ := Option.isSome_iff_exists.1 hf
    obtain ⟨g, hg⟩ := Option.isSome_iff_exists.1 hg
    have hins : (call.ins.map fun i => i.read s.reg) = call.ins.map fun i => i.read t.reg :=
      List.map_congr_left fun i hi => hst.read fun r hr => hD r (mem_readRegs_of_call hc hget hi hr)
    have hout : call.out.read s'.reg = call.out.read t'.reg := hagree.read fun r hr => by
      refine Or.inr ?_
      rw [defines, if_pos hc, hget]
      exact hr
    simp only [hget, hg, hins, hout]
    -- Both calls left the same in the scratch that the forward wrote.
    simp only [exec, hc, hget, hf, hins, hst.2] at hs ht
    cases hfwd : M.forward f call.shape (call.ins.map fun i => i.read t.reg) t.eff with
    | error e => simp [hfwd, Except.map] at ht
    | ok r =>
      simp only [hfwd, Except.map, Except.ok.injEq] at hs ht
      subst hs ht
      congr 1
      refine (hW hc).scratch call f g _ _ r hf hg hfwd _ _ _ _ (by simp [Span.read, Span.regs])
        (by simp [Span.read, Span.regs]) fun j hj => ?_
      rcases lt_or_ge j call.scratch.len with hlt | hge
      · simp only [Span.read, Span.regs, List.getElem?_map, List.getElem?_range hlt, Option.map_some,
          Option.some.injEq]
        unfold writeRun
        rw [if_pos (Nat.le_add_right ..), if_pos (Nat.le_add_right ..), Nat.add_sub_cancel_left,
          List.getElem?_eq_getElem (by rw [List.length_take]; omega)]
        rfl
      · rw [List.getElem?_eq_none (by simpa [Span.read, Span.regs] using hge),
          List.getElem?_eq_none (by simpa [Span.read, Span.regs] using hge)]
  · rename_i hc
    rw [jacobian_agree h hR (fun r hr => hst.1 r (hD r hr)) (fun r hr => hagree.1 r (Or.inr hr)) hc
      fun hrange => exec_range hrange hs]

/-! ## Two runs -/

/-- Two visits of one position that agree on what is read there. -/
def VisitsAgree (R : Registry) (p : IslandProg V) (v w : ℕ × File V S) : Prop :=
  v.1 = w.1 ∧ AgreeOn (fun r => ∃ I, p.code[v.1]? = some I ∧ r ∈ p.readRegs R I) v.2 w.2

/-- No instruction is a `REJECT`. -/
def NoReject (p : IslandProg V) : Prop := ∀ I ∈ p.code, I.code ≠ .reject

/-- Two runs that have agreed so far on what was read and on what is ready. -/
structure PathsAgree (R : Registry) (p : IslandProg V) (k nx : ℕ) (vs ws : List (ℕ × File V S))
    (s t : File V S) : Prop where
  path : p.ControlPath (vs.map Prod.fst) (max nx k)
  visits : List.Forall₂ (VisitsAgree R p) vs ws
  agree : AgreeOn (p.Ready (vs.map Prod.fst)) s t

section Runs

variable (hacc : p.accepts R = true) (hR : M.toRegistry = R)
  (hW : ∀ I ∈ p.code, I.code = .call → M.WritesOutputs) (hnr : p.NoReject)

include hacc hR hW hnr

lemma PathsAgree.exec (hinit : InitialisesReads R p) {nx : ℕ} {vs ws : List (ℕ × File V S)}
    (h : PathsAgree R p k nx vs ws s t) (hle : nx ≤ k) (hI : p.code[k]? = some I) :
    (∀ r ∈ p.readRegs R I, p.Ready (vs.map Prod.fst) r) ∧
      Alike (AgreeOn fun r => p.Ready (vs.map Prod.fst) r ∨ r ∈ p.defines I) (p.exec M I s)
        (p.exec M I t) := by
  have hpath := h.path
  rw [max_eq_right hle] at hpath
  have hreads := hinit.reads _ _ I hpath hI
  exact ⟨hreads, exec_agree (checked_of_accepts hacc hI).plain hR
    (fun hc => Or.inl (hW I (List.mem_of_getElem? hI) hc).out) (hnr I (List.mem_of_getElem? hI))
    hreads h.agree⟩

lemma PathsAgree.step (hinit : InitialisesReads R p) {nx : ℕ} {vs ws : List (ℕ × File V S)}
    (h : PathsAgree R p k nx vs ws s t) (hle : nx ≤ k) (hI : p.code[k]? = some I) {s' : File V S}
    (hex : p.exec M I s = .ok s') : ∃ t', p.exec M I t = .ok t' ∧ I.next M k t = I.next M k s ∧
      PathsAgree R p (k + 1) (I.next M k s) (vs ++ [(k, s)]) (ws ++ [(k, t)]) s' t' := by
  obtain ⟨hreads, halike⟩ := h.exec hacc hR hW hnr hinit hle hI
  rw [hex] at halike
  cases hex' : p.exec M I t with
  | error e =>
    rw [hex'] at halike
    exact halike.elim
  | ok t' =>
    rw [hex'] at halike
    refine ⟨t', rfl, ?_, ?_, ?_, ?_⟩
    · unfold Instr.next
      split
      · rename_i hc
        have ha : I.a ∈ p.readRegs R I := mem_readRegs (j := 0) (i := 0) (by simp [hc]) (by simp [hc])
          (by simp [hc]) (by omega) (by simp [Instr.reads, Instr.rule, hc, Code.has, Code.flags])
          (by simp [Instr.inputLen, hc, Code.has, Code.flags])
        rw [h.agree.1 _ (hreads _ ha)]
      · rfl
      · rfl
    · have hlt : k < I.next M k s := forward_of_accepts hacc M k I s hI
      have hpath := h.path
      rw [max_eq_right hle] at hpath
      rw [max_eq_left hlt, List.map_append]
      exact hpath.step hI (next_mem_successors hex)
    · refine List.rel_append h.visits (List.Forall₂.cons ⟨rfl, ?_, h.agree.2⟩ .nil)
      rintro r ⟨J, hJ, hr⟩
      obtain rfl : I = J := Option.some.inj (hI.symm.trans hJ)
      exact h.agree.1 r (hreads r hr)
    · refine ⟨fun r hr => halike.1 r ?_, halike.2⟩
      rw [List.map_append] at hr
      rcases hr with hlive | ⟨j, hj, J, hJ, hdef⟩
      · exact Or.inl (Or.inl hlive)
      · rcases List.mem_append.1 hj with hj | hj
        · exact Or.inl (Or.inr ⟨j, hj, J, hJ, hdef⟩)
        · obtain rfl := List.mem_singleton.1 hj
          obtain rfl : I = J := Option.some.inj (hI.symm.trans hJ)
          exact Or.inr hdef

/-- What a run does depends on the live-ins. -/
theorem run_agree (hinit : InitialisesReads R p)
    (hst : AgreeOn (fun r => p.isLiveIn r = true) s t) :
    Branching.EndsAlike (fun vs ws s' t' => List.Forall₂ (VisitsAgree R p) vs ws ∧
        AgreeOn (· ∈ p.outRegs) s' t') (fun _ _ => True)
      ((p.machine M).sweep 0 p.code 0 s) ((p.machine M).sweep 0 p.code 0 t) := by
  have hstart : PathsAgree R p 0 0 [] [] s t :=
    ⟨.start, .nil, fun r hr => hst.1 r (hr.resolve_right (by simp)), hst.2⟩
  have hends := Branching.sweep_lockstep (B := p.machine M) (C := p.machine M)
    (R := PathsAgree R p)
    (fun k nx I vs ws u v e hI hle h he => by
      have halike := (h.exec hacc hR hW hnr hinit hle hI).2
      change p.exec M I u = .error e at he
      change p.exec M I v = .error e
      rw [he] at halike
      cases hv : p.exec M I v with
      | error e' =>
        rw [hv] at halike
        rw [show e = e' from halike]
      | ok v' =>
        rw [hv] at halike
        exact halike.elim)
    (fun k nx I vs ws u v u' hI hle h hex => h.step hacc hR hW hnr hinit hle hI hex)
    (fun k nx vs ws u v hlt h => ⟨by
      rw [max_eq_left (Nat.succ_le_of_lt hlt), ← max_eq_left hlt.le]
      exact h.path, h.visits, h.agree⟩) (List.drop_zero (l := p.code)) hstart
  revert hends
  rcases (p.machine M).sweep 0 p.code 0 s with ⟨vs, e | ⟨nx, s'⟩⟩ <;>
    rcases (p.machine M).sweep 0 p.code 0 t with ⟨ws, e' | ⟨nx', t'⟩⟩ <;> intro hends
  · exact hends
  · exact hends.elim
  · exact hends.elim
  · obtain ⟨nx, h⟩ := hends
    simp only [List.nil_append, Nat.zero_add] at h
    exact ⟨h.visits, fun r hr => h.agree.1 r (hinit.outs _ _ h.path (le_max_right ..) r hr), h.agree.2⟩

/-- Paths that agree have the same adjoints. -/
theorem pathAdjoint_agree {vs ws : List (ℕ × File V S)}
    (h : List.Forall₂ (VisitsAgree R p) vs ws) (seed : ℕ → V) :
    p.pathAdjoint M vs seed = p.pathAdjoint M ws seed := by
  induction h with
  | nil => rfl
  | @cons v w vs ws hvw _ ih =>
    unfold pathAdjoint at ih ⊢
    rw [List.foldr_cons, List.foldr_cons, ih, ← hvw.1]
    cases hI : p.code[v.1]? with
    | none => rfl
    | some I =>
      have hch := checked_of_accepts hacc hI
      have hrej := hnr I (List.mem_of_getElem? hI)
      have hreads : ∀ r ∈ p.readRegs R I, ∃ J, p.code[v.1]? = some J ∧ r ∈ p.readRegs R J :=
        fun r hr => ⟨I, hI, hr⟩
      have hcall := hW I (List.mem_of_getElem? hI)
      have halike := exec_agree hch.plain hR (fun hc => Or.inl (hcall hc).out) hrej hreads hvw.2
      dsimp only
      cases hs : p.exec M I v.2 with
      | error e =>
        cases ht : p.exec M I w.2 with
        | error e' => rfl
        | ok t' =>
          rw [hs, ht] at halike
          exact halike.elim
      | ok s' =>
        cases ht : p.exec M I w.2 with
        | error e' =>
          rw [hs, ht] at halike
          exact halike.elim
        | ok t' =>
          dsimp only
          unfold pullback
          rw [pulled_agree hch hR hcall hrej hreads hvw.2 hs ht]

end Runs

end IslandProg

end Stanli
