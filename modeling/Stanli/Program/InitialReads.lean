import Stanli.Lib.Dataflow
import Stanli.Program.CopyPropSound

/-!
# Initialised reads

`Program.initializesReads` is `program_initializes_reads` of `program.cpp`: a must-analysis of the
registers that have been written in front of every instruction, over code with loops.  Where it says
yes no execution reads a register that is neither seeded nor written by the execution itself, and two
executions that find the same seeds end alike, whatever else their register files hold
(`initializesReads_sound`).
-/

namespace Stanli

open Program

namespace Program

variable {V : Type*}

/-! ## The analysis -/

/-- `pred`: where control can come from. -/
def preds (p : Program V) (pc' : ℕ) : List ℕ :=
  p.code.zipIdx.flatMap fun e =>
    (if e.1.isJump = true ∧ e.1.dst = pc' then [e.2] else []) ++
      if e.1.code ≠ .jmp ∧ e.2 + 1 = pc' then [e.2] else []

/-- The writes that count: the scratch of a `CALL` is private. -/
def storedSpans (p : Program V) (I : Instr) : List Span :=
  if I.code = .call then
    match p.calls[I.a]? with
    | some call => [call.out]
    | none => []
  else p.eachWrite I

/-- The reads at a position; behind the code the live-outs are read. -/
def readsAt (R : Registry) (p : Program V) (pc : ℕ) : List Span :=
  match p.code[pc]? with
  | some I => p.eachRead R I
  | none => p.outRegs.map fun r => ⟨r, 1⟩

/-- The checks of one instruction. -/
def readsChecked (R : Registry) (p : Program V) (I : Instr) : Bool :=
  (!I.rule.has .noAdjoint ||
    decide (I.code ∈ [Code.jz, .jmp, .dynSet, .dynLseRange, .print, .reject])) &&
  (decide (I.code ≠ .call) || decide (I.a < p.calls.length)) &&
  (decide (I.code ≠ .print ∧ I.code ≠ .reject) || decide (I.a < p.messages.length)) &&
  (!I.isJump || decide (I.dst ≤ p.code.length)) &&
  (p.eachRead R I).all p.inFile && ((I.readOperands R).all fun o => decide (o.1 < 2) || decide (0 ≤ I.c)) &&
  (p.storedSpans I).all p.inFile

/-- `words`: a set of registers takes so many words of 64 bits. -/
def bitWords (p : Program V) : ℕ := (p.nRegs + 63) / 64

/-- The registers written behind every instruction. -/
def writtenFlow (p : Program V) (seeded : List Span) : Flow where
  size := p.code.length + 1
  width := 64 * p.bitWords
  pred := p.preds
  entry := (seeded.flatMap Span.regs).toFinset
  gen := fun pc => ((p.code[pc]?.elim [] p.storedSpans).flatMap Span.regs).toFinset

/-- `program_initializes_reads`. -/
def initializesReads (R : Registry) (p : Program V) (seeded : List Span) : Bool :=
  let n := p.code.length
  let flow := p.writtenFlow seeded
  let out := flow.solve flow.full
  decide (n ≤ 2048) && decide (p.bitWords ≤ 1024 * 1024 / (n + 1)) &&
  seeded.all p.inFile &&
  p.code.all (p.readsChecked R) &&
  p.outRegs.all (fun r => p.inFile ⟨r, 1⟩) &&
  (List.range (n + 1)).all fun pc =>
    (p.readsAt R pc).all fun s => s.regs.all fun r => decide (r ∈ flow.incoming out pc)

/-! ## What the checks say -/

variable {R : Registry} {p : Program V} {seeded : List Span} {I : Instr}

/-- An instruction that passes the checks. -/
structure ReadsChecked (p : Program V) (I : Instr) : Prop where
  audited : I.isAudited = true
  target : I.isJump = true → I.dst ≤ p.code.length
  stored : ∀ s ∈ p.storedSpans I, p.inFile s = true

lemma readsChecked_spec (h : p.readsChecked R I = true) : p.ReadsChecked I := by
  simp only [readsChecked, Bool.and_eq_true, Bool.or_eq_true, Bool.not_eq_true', decide_eq_true_eq] at h
  obtain ⟨⟨⟨⟨⟨⟨haudit, -⟩, -⟩, htarget⟩, -⟩, -⟩, hstored⟩ := h
  refine ⟨?_, fun hj => htarget.resolve_left (by simp [hj]), List.all_eq_true.1 hstored⟩
  rw [Instr.isAudited, Bool.or_eq_true, Bool.not_eq_true', decide_eq_true_eq]
  refine haudit.imp_left fun hrule => ?_
  by_cases hc : I.code = .range
  · rw [hc]
    rfl
  · rwa [Instr.rule, if_neg hc] at hrule

/-- The writes that count are what an instruction is known to have written. -/
lemma exists_storedSpans (h : I.isAudited = true) {r : ℕ} :
    (∃ s ∈ p.storedSpans I, r ∈ s.regs) ↔ r ∈ p.defines I := by
  unfold storedSpans defines
  split
  · cases p.calls[I.a]? <;> simp
  · rename_i hc
    rw [exists_eachWrite (code_ne_transform_of_isAudited h), writes, if_neg hc]

/-- Where control can go from an instruction. -/
lemma mem_of_successors {k k' : ℕ} (h : k' ∈ I.successors k) :
    k' ∈ (if I.code ≠ .jmp then [k + 1] else []) ++ if I.isJump = true then [I.dst] else [] := by
  cases hc : I.code <;> simp only [Instr.successors, hc, List.mem_cons, List.not_mem_nil, or_false] at h
  case jz => rcases h with rfl | rfl <;> simp [Instr.isJump, hc]
  case jmp => simp [Instr.isJump, hc, h]
  all_goals simp [h]

lemma mem_preds {pc pc' : ℕ} (hI : p.code[pc]? = some I) (h : pc' ∈ I.successors pc) :
    pc ∈ p.preds pc' := by
  refine List.mem_flatMap.2 ⟨(I, pc), List.mk_mem_zipIdx_iff_getElem?.2 hI, ?_⟩
  cases hc : I.code <;> simp only [Instr.successors, hc, List.mem_cons, List.not_mem_nil, or_false] at h
  case jz =>
    rcases h with rfl | rfl <;> simp [Instr.isJump, hc]
  case jmp =>
    subst h
    simp [Instr.isJump, hc]
  all_goals
    subst h
    simp

/-- The facts of a checked program. -/
structure ReadsAnalysed (R : Registry) (p : Program V) (seeded : List Span) : Prop where
  seeds : ∀ s ∈ seeded, p.inFile s = true
  code : ∀ I ∈ p.code, p.ReadsChecked I
  reads : ∀ pc ≤ p.code.length, ∀ s ∈ p.readsAt R pc, ∀ r ∈ s.regs,
    r ∈ (p.writtenFlow seeded).incoming
      ((p.writtenFlow seeded).solve (p.writtenFlow seeded).full) pc

lemma readsAnalysed_of_initializesReads (h : p.initializesReads R seeded = true) :
    ReadsAnalysed R p seeded := by
  simp only [initializesReads, Bool.and_eq_true, List.all_eq_true, decide_eq_true_eq,
    List.mem_range] at h
  obtain ⟨⟨⟨⟨⟨-, -⟩, hseeds⟩, hcode⟩, -⟩, hreads⟩ := h
  exact ⟨hseeds, fun I hI => readsChecked_spec (hcode I hI), fun pc hpc => hreads pc (by omega)⟩

/-- What is in the file has a bit. -/
lemma regs_subset_width {s : Span} (h : p.inFile s = true) {r : ℕ} (hr : r ∈ s.regs) :
    r < 64 * p.bitWords := by
  have hin : s.reg + s.len ≤ p.nRegs := by simpa [inFile] using h
  have hmem := Span.mem_regs.1 hr
  unfold bitWords
  omega

/-- The analysis ends with facts that it computes from themselves. -/
lemma ReadsAnalysed.fixed (h : ReadsAnalysed R p seeded) :
    (p.writtenFlow seeded).Fixed ((p.writtenFlow seeded).solve (p.writtenFlow seeded).full) := by
  refine Flow.solve_fixed (Flow.shrinks_full (fun r hr => ?_) fun pc hpc r hr => ?_) fun bits hbits => ?_
  · obtain ⟨s, hs, hr⟩ := List.mem_flatMap.1 (List.mem_toFinset.1 hr)
    exact Finset.mem_range.2 (regs_subset_width (h.seeds s hs) hr)
  · obtain ⟨s, hs, hr⟩ := List.mem_flatMap.1 (List.mem_toFinset.1 hr)
    cases hI : p.code[pc]? with
    | none => simp [hI] at hs
    | some I =>
      rw [hI] at hs
      exact Finset.mem_range.2
        (regs_subset_width ((h.code I (List.mem_of_getElem? hI)).stored s hs) hr)
  · rw [List.eq_of_mem_replicate hbits]

/-- A control path is a path of the analysis. -/
lemma ReadsAnalysed.path {vs : List ℕ} {pc : ℕ} (hpath : p.ControlPath vs pc) :
    (p.writtenFlow seeded).Path vs pc := by
  induction hpath with
  | start => exact .start
  | step _ hI hnext ih =>
    have hlt := (List.getElem?_eq_some_iff.1 hI).1
    exact ih.step (Nat.lt_succ_of_lt hlt) (mem_preds hI hnext)

/-- A control path stays in the code or is at its end. -/
lemma ControlPath.le_length (hjump : ∀ I ∈ p.code, I.isJump = true → I.dst ≤ p.code.length)
    {vs : List ℕ} {pc : ℕ} (hpath : p.ControlPath vs pc) : pc ≤ p.code.length := by
  cases hpath with
  | start => exact Nat.zero_le _
  | @step _ pc _ I _ hI hnext =>
    have hlt := (List.getElem?_eq_some_iff.1 hI).1
    rcases List.mem_append.1 (mem_of_successors hnext) with hmem | hmem
    · split at hmem <;> simp at hmem
      omega
    · split at hmem
      · rename_i hj
        rw [List.mem_singleton.1 hmem]
        exact hjump I (List.mem_of_getElem? hI) hj
      · simp at hmem

/-- On every control path, through any number of back edges, what is read is seeded or written
before. -/
theorem ReadsAnalysed.defined (h : ReadsAnalysed R p seeded) {vs : List ℕ} {pc : ℕ}
    (hpath : p.ControlPath vs pc) {s : Span} (hs : s ∈ p.readsAt R pc) {r : ℕ} (hr : r ∈ s.regs) :
    p.Defined (fun r => pinnedBy seeded r = true) vs r := by
  have hbit := h.reads pc (hpath.le_length fun I hI => (h.code I hI).target) s hs r hr
  rcases Flow.sound h.fixed (ReadsAnalysed.path hpath) hbit with hentry | ⟨j, hj, hgen⟩
  · obtain ⟨i, hi, hri⟩ := List.mem_flatMap.1 (List.mem_toFinset.1 hentry)
    exact Or.inl (List.any_eq_true.2 ⟨i, hi, decide_eq_true hri⟩)
  · obtain ⟨i, hi, hri⟩ := List.mem_flatMap.1 (List.mem_toFinset.1 hgen)
    cases hJ : p.code[j]? with
    | none => simp [hJ] at hi
    | some J =>
      rw [hJ] at hi
      have haudit := (h.code J (List.mem_of_getElem? hJ)).audited
      exact Or.inr ⟨j, hj, J, hJ, (exists_storedSpans haudit).1 ⟨i, hi, hri⟩⟩

/-- What has been written stays so, and what an instruction writes comes with it. -/
lemma Defined.of_concat {vs : List ℕ} {pc r : ℕ} {I : Instr} (hI : p.code[pc]? = some I)
    (h : p.Defined (fun r => pinnedBy seeded r = true) (vs ++ [pc]) r) :
    p.Defined (fun r => pinnedBy seeded r = true) vs r ∨ r ∈ p.defines I := by
  rcases h with h | ⟨j, hj, J, hJ, hr⟩
  · exact Or.inl (Or.inl h)
  · rcases List.mem_append.1 hj with hj | hj
    · exact Or.inl (Or.inr ⟨j, hj, J, hJ, hr⟩)
    · obtain rfl := List.mem_singleton.1 hj
      obtain rfl := Option.some.inj (hI.symm.trans hJ)
      exact Or.inr hr

/-! ## Executions -/

section Runs

variable {V E S : Type*} [Field V] {M : StanMath V E S} {p : Program V} {seeded : List Span}

/-- An execution follows a control path. -/
lemma controlPath_of_steps {s t : File V S} {vs : List (ℕ × File V S)} {pc : ℕ}
    (h : (p.machine M).Steps p.code 0 s vs pc t) : p.ControlPath (vs.map Prod.fst) pc := by
  induction h with
  | refl => exact .start
  | step _ hi he ih =>
    rw [List.map_append]
    exact ih.step hi (next_mem_successors he)

/-- No execution, however long, reads or returns a register that is neither seeded nor written by an
instruction before it. -/
structure ReadsInitialised (M : StanMath V E S) (p : Program V) (seeded : List Span) : Prop where
  reads : ∀ s vs pc t I, (p.machine M).Steps p.code 0 s vs pc t → p.code[pc]? = some I →
    ∀ i ∈ p.eachRead M.toRegistry I, ∀ r ∈ i.regs,
      p.Defined (fun r => pinnedBy seeded r = true) (vs.map Prod.fst) r
  outs : ∀ s vs pc t, (p.machine M).Steps p.code 0 s vs pc t → p.code[pc]? = none →
    ∀ r ∈ p.outRegs, p.Defined (fun r => pinnedBy seeded r = true) (vs.map Prod.fst) r

lemma ReadsAnalysed.initialised (h : ReadsAnalysed M.toRegistry p seeded) :
    ReadsInitialised M p seeded := by
  constructor
  · intro s vs pc t I hsteps hI i hi r hr
    exact h.defined (controlPath_of_steps hsteps) (by rw [readsAt, hI]; exact hi) hr
  · intro s vs pc t hsteps hend r hr
    refine h.defined (controlPath_of_steps hsteps) (s := ⟨r, 1⟩) ?_ (by simp)
    rw [readsAt, hend]
    exact List.mem_map.2 ⟨r, hr, rfl⟩

/-- Two executions from files that agree on the seeds stay together: they visit the same positions,
take the same branches and agree on everything that has been written. -/
lemma ReadsAnalysed.lockstep (h : ReadsAnalysed M.toRegistry p seeded) (hW : M.FillsOutputs)
    {s s' t : File V S} (hagree : AgreeOn (fun r => pinnedBy seeded r = true) s s')
    {vs : List (ℕ × File V S)} {pc : ℕ} (hsteps : (p.machine M).Steps p.code 0 s vs pc t) :
    ∃ ws t', (p.machine M).Steps p.code 0 s' ws pc t' ∧ ws.map Prod.fst = vs.map Prod.fst ∧
      p.branches M ws = p.branches M vs ∧
      AgreeOn (p.Defined (fun r => pinnedBy seeded r = true) (vs.map Prod.fst)) t t' := by
  induction hsteps with
  | refl =>
    refine ⟨[], s', .refl, rfl, rfl, fun r hr => hagree.1 r ?_, hagree.2⟩
    exact hr.resolve_right (by simp)
  | @step vs pc t u I hsteps hI he ih =>
    obtain ⟨ws, t', hsteps', hpos, hbranch, hrel⟩ := ih
    have hreads := h.initialised.reads s vs pc t I hsteps hI
    have haudit := (h.code I (List.mem_of_getElem? hI)).audited
    have halike := exec_agree_audited haudit hW hreads hrel
    change p.exec M I t = .ok u at he
    rw [he] at halike
    cases he' : p.exec M I t' with
    | error e =>
      rw [he'] at halike
      exact halike.elim
    | ok u' =>
      rw [he'] at halike
      have hnext : I.next M pc t = I.next M pc t' := next_agree pc hreads hrel
      refine ⟨ws ++ [(pc, t')], u', ?_, ?_, ?_, fun r hr => halike.1 r ?_, halike.2⟩
      · have := hsteps'.step hI he'
        change (p.machine M).Steps p.code 0 s' (ws ++ [(pc, t')]) (I.next M pc t) u'
        rw [hnext]
        exact this
      · rw [List.map_append, List.map_append, hpos]
        rfl
      · unfold branches at hbranch ⊢
        rw [List.filterMap_append, List.filterMap_append, hbranch]
        congr 1
        by_cases hc : I.code = .jz
        · have ha : t.reg I.a = t'.reg I.a := by
            refine hrel.1 _ (hreads ⟨I.a, 1⟩ ?_ I.a (by simp))
            simp [eachRead, Instr.readOperands, Instr.rule, Instr.inputLen, Instr.operand, hc,
              Code.has, Code.flags]
          simp [hI, if_pos hc, ha]
        · simp [hI, if_neg hc]
      · rw [List.map_append] at hr
        exact hr.of_concat hI

/-- Where the analysis says yes every read and every live-out is initialised by the execution itself;
so what a reused register file still holds of an earlier call changes neither the branches taken, nor
an error, nor the live-outs. -/
theorem initializesReads_sound (hW : M.FillsOutputs)
    (h : p.initializesReads M.toRegistry seeded = true) :
    ReadsInitialised M p seeded ∧
      ∀ s s', AgreeOn (fun r => pinnedBy seeded r = true) s s' → ∀ vs r, p.Runs M s vs r →
        ∃ ws r', p.Runs M s' ws r' ∧ ws.map Prod.fst = vs.map Prod.fst ∧
          p.branches M ws = p.branches M vs ∧ Alike (AgreeOn fun r => r ∈ p.outRegs) r r' := by
  have h := readsAnalysed_of_initializesReads h
  refine ⟨h.initialised, fun s s' hagree vs r hrun => ?_⟩
  rcases Branching.exists_run_iff_ends.1 hrun with ⟨pc, t, hsteps, hend, rfl⟩ |
    ⟨us, pc, t, I, e, hsteps, rfl, hI, he, rfl⟩
  · obtain ⟨ws, t', hsteps', hpos, hbranch, hrel⟩ := h.lockstep hW hagree hsteps
    refine ⟨ws, .ok t', Branching.exists_run_iff_ends.2 (Or.inl ⟨pc, t', hsteps', hend, rfl⟩), hpos,
      hbranch, fun r hr => hrel.1 r ?_, hrel.2⟩
    exact h.initialised.outs s vs pc t hsteps hend r hr
  · obtain ⟨ws, t', hsteps', hpos, hbranch, hrel⟩ := h.lockstep hW hagree hsteps
    have hreads := h.initialised.reads s us pc t I hsteps hI
    have halike := exec_agree_audited (h.code I (List.mem_of_getElem? hI)).audited hW hreads hrel
    change p.exec M I t = .error e at he
    rw [he] at halike
    cases he' : p.exec M I t' with
    | ok u' =>
      rw [he'] at halike
      exact halike.elim
    | error e' =>
      rw [he'] at halike
      obtain rfl : e = e' := halike
      refine ⟨ws ++ [(pc, t')], .error e, Branching.exists_run_iff_ends.2
        (Or.inr ⟨ws, pc, t', I, e, hsteps', rfl, hI, he', rfl⟩), ?_, ?_, rfl⟩
      · rw [List.map_append, List.map_append, hpos]
        rfl
      · unfold branches at hbranch ⊢
        rw [List.filterMap_append, List.filterMap_append, hbranch]
        congr 1
        have hjz : I.code ≠ .jz := by
          intro hc
          rw [exec, hc] at he
          cases he
        simp [hI, if_neg hjz]

end Runs

/-- `y = c; while (x) y = y + x`. -/
def sumLoop : Program ℚ where
  code := [{ code := .const, dst := 1 }, { code := .jz, a := 0, dst := 4 },
    { code := .add, dst := 1, a := 1, b := 0 }, { code := .jmp, dst := 1 }]
  pool := [1]
  nRegs := 2
  outRegs := [1]

/-- With `x` seeded every read of `sumLoop` is initialised, however often the loop is taken. -/
theorem sumLoop_initialised : ReadsInitialised noKernels sumLoop [⟨0, 1⟩] ∧
    ∀ s s', AgreeOn (fun r => pinnedBy [⟨0, 1⟩] r = true) s s' → ∀ vs r, sumLoop.Runs noKernels s vs r →
      ∃ ws r', sumLoop.Runs noKernels s' ws r' ∧ ws.map Prod.fst = vs.map Prod.fst ∧
        sumLoop.branches noKernels ws = sumLoop.branches noKernels vs ∧
          Alike (AgreeOn fun r => r ∈ sumLoop.outRegs) r r' :=
  initializesReads_sound noKernels_fillsOutputs (by decide +kernel)

end Program

end Stanli
