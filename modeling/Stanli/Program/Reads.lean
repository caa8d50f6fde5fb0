import Stanli.Program.Path

/-!
# What an instruction reads

The registers an instruction of an accepted program reads lie in the file (`readRegs_lt`), and it depends
on them and on no others: files that agree there are left alike (`exec_agree`, `exec_congr`).
-/

namespace Stanli

open Program

/-- A kernel writes its whole output. -/
def StanMath.FillsOutputs {V E S : Type*} (M : StanMath V E S) : Prop :=
  ∀ f shape ins s r, M.forward f shape ins s = .ok r → shape.outLen ≤ r.1.1.length

namespace Program

variable {V E S : Type*}

/-- Two files that agree on the registers in `D` and on the effects. -/
def AgreeOn (D : ℕ → Prop) (s t : File V S) : Prop := (∀ r, D r → s.reg r = t.reg r) ∧ s.eff = t.eff

lemma AgreeOn.read {D : ℕ → Prop} {s t : File V S} (h : AgreeOn D s t) {i : Span}
    (hi : ∀ r ∈ i.regs, D r) : i.read s.reg = i.read t.reg :=
  List.map_congr_left fun r hr => h.1 r (hi r hr)

/-- Both store the same value. -/
lemma AgreeOn.put {D D' : ℕ → Prop} {s t : File V S} (h : AgreeOn D s t) {dst : ℕ}
    (hD : ∀ r, D' r → D r ∨ r = dst) {v w : Except E V} (hvw : v = w) :
    Alike (AgreeOn D') (v.map (s.set dst)) (w.map (t.set dst)) := by
  subst hvw
  refine (Alike.refl (Q := Eq) (fun _ => rfl) v).map ?_
  rintro a _ rfl
  refine ⟨fun r hr => ?_, h.2⟩
  unfold File.set Function.update
  dsimp only
  split
  · rfl
  · exact h.1 r ((hD r hr).resolve_right ‹_›)

lemma AgreeOn.loop {D D' : ℕ → Prop} {s t : File V S} (h : AgreeOn D s t) {dst len : ℕ}
    (hD : ∀ r, D' r → D r ∨ (dst ≤ r ∧ r < dst + len)) {f g : ℕ → (ℕ → V) → Except E V}
    (hfg : ∀ k < len, ∀ x y : ℕ → V, (∀ r, D r → x r = y r) → f k x = g k y) :
    Alike (AgreeOn D') (s.withReg (writeLoop f dst len s.reg))
      (t.withReg (writeLoop g dst len t.reg)) :=
  (writeLoop_agree hfg h.1).map fun _ _ hab => ⟨fun r hr => hab r (hD r hr), h.2⟩

/-- Both store the same values. -/
lemma agreeOn_writeRun {D D' : ℕ → Prop} {dst : ℕ} {x y : ℕ → V} (h : ∀ r, D r → x r = y r)
    {vs : List V} (hD : ∀ r, D' r → D r ∨ (dst ≤ r ∧ r < dst + vs.length)) :
    ∀ r, D' r → writeRun x dst vs r = writeRun y dst vs r := by
  intro r hr
  unfold writeRun
  rcases hD r hr with hr | ⟨hle, hlt⟩
  · rw [h r hr]
  · rw [if_pos hle, if_pos hle, List.getElem?_eq_getElem (by omega)]
    rfl

end Program

/-- A scalar instruction depends on the operands it reads. -/
lemma StanMath.scalar_congr {V E S : Type*} [Field V] (M : StanMath V E S) {code : Code} (law : ℕ) (x : V) {y z y' z' : V}
    (hb : code.has .readB = true → y = y') (hc : code.has .readC = true → z = z') :
    M.scalar code law x y z = M.scalar code law x y' z' := by
  cases code <;> first
    | rfl
    | rw [hb rfl, hc rfl]
    | (have h := hb rfl; subst h; rfl)

lemma Program.Code.elementwise.noInputs {code : Code} (h : code.elementwise = true) :
    code.has .noInputs = false := by
  cases code <;> first | rfl | exact absurd h (by decide)

namespace IslandProg

variable {V E S : Type*} [Field V] {R : Registry} {p : IslandProg V} {M : StanMath V E S} {k : ℕ}
  {I : Instr} {D : ℕ → Prop} {s t : File V S}

omit [Field V] in
lemma callOf_eq_none (h : I.code ≠ .call) : p.callOf I = none := if_neg h

omit [Field V] in
lemma defines_of_ne_call (h : I.code ≠ .call) : p.defines I = (Span.mk I.dst I.outputLen).regs :=
  if_neg h

omit [Field V] in
lemma mem_defines (hc : I.code ≠ .call) {r : ℕ} :
    r ∈ p.defines I ↔ I.dst ≤ r ∧ r < I.dst + I.outputLen := by
  rw [defines_of_ne_call hc, Span.mem_regs]

omit [Field V] in
lemma mem_readRegs (hcall : I.code ≠ .call) (hden : I.code ≠ .density)
    (hdyn : I.code ≠ .dynIndex) {j i : ℕ} (hj : j < 3) (hread : I.reads j = true)
    (hi : i < I.inputLen j) : I.operand j + i ∈ p.readRegs R I := by
  have hran : I.isRangedDensity R = false := by simp [Instr.isRangedDensity, hden]
  unfold readRegs readSpans
  rw [if_neg hden, callOf_eq_none hcall]
  simp only [hran, hdyn, if_false, Bool.false_eq_true, List.mem_flatMap, List.mem_range]
  refine ⟨⟨I.operand j, I.inputLen j⟩, ⟨j, hj, ?_⟩, Span.mem_regs.2 ⟨Nat.le_add_right .., ?_⟩⟩
  · rw [if_pos hread]
    exact List.mem_singleton_self _
  · exact Nat.add_lt_add_left hi _

omit [Field V] in
/-- The inputs of a call are read. -/
lemma mem_readRegs_of_call {call : Call} (hc : I.code = .call) (hget : p.calls[I.a]? = some call)
    {i : Span} (hi : i ∈ call.ins) {r : ℕ} (hr : r ∈ i.regs) : r ∈ p.readRegs R I := by
  have hof : p.callOf I = some call := by rw [callOf, if_pos hc, hget]
  rw [readRegs, if_neg (by simp [hc]), readSpans, hof]
  exact List.mem_flatMap.2 ⟨i, hi, hr⟩

omit [Field V] in
/-- The elements of an index and the index itself are read. -/
lemma mem_readRegs_of_dynIndex (hc : I.code = .dynIndex) {r : ℕ}
    (hr : r = I.b ∨ (I.a + I.c.toNat ≤ r ∧ r < I.a + I.c.toNat + I.len)) : r ∈ p.readRegs R I := by
  have hran : I.isRangedDensity R = false := by simp [Instr.isRangedDensity, hc]
  rw [readRegs, if_neg (by simp [hc]), readSpans, callOf_eq_none (by simp [hc])]
  simp only [hran, hc, Bool.false_eq_true, if_false, if_true, List.mem_flatMap, List.mem_cons,
    List.not_mem_nil, or_false, exists_eq_or_imp, exists_eq_left, Span.mem_regs]
  omega

omit [Field V] in
/-- The registers an instruction reads lie in the file. -/
lemma readRegs_lt (h : p.Checked R k I) {r : ℕ} (hr : r ∈ p.readRegs R I) : r < p.nRegs := by
  rw [readRegs] at hr
  split at hr
  · exact densityArgs_below h ‹_› r hr
  rename_i hden
  have hran : I.isRangedDensity R = false := by simp [Instr.isRangedDensity, hden]
  obtain ⟨i, hi, hr⟩ := List.mem_flatMap.1 hr
  obtain ⟨-, hlt⟩ := Span.mem_regs.1 hr
  refine hlt.trans_le ?_
  by_cases hc : I.code = .call
  · obtain ⟨call, hget, -, -, -, -, hins⟩ := h.call hc
    rw [readSpans, callOf, if_pos hc, hget] at hi
    exact hins i hi
  rw [readSpans, callOf_eq_none hc] at hi
  simp only [hran, Bool.false_eq_true, if_false] at hi
  split at hi
  · obtain ⟨-, -, hend, hb⟩ := h.dynIndex ‹_›
    rcases List.mem_pair.1 hi with rfl | rfl
    · exact hend
    · exact hb
  · rename_i hdyn
    obtain ⟨j, hj, hi⟩ := List.mem_flatMap.1 hi
    split at hi
    · rw [List.mem_singleton.1 hi]
      exact h.span hdyn hc hden (List.mem_range.1 hj) ‹_›
    · cases hi

omit [Field V] in
/-- An element of an operand of a range is one of the operand. -/
lemma stride_lt (hc : I.code = .range) (j : ℕ) {i : ℕ} (hi : i < I.len) :
    I.stride j * i < I.inputLen j := by
  have hin : I.inputLen j = if I.bcast.testBit j then 1 else I.len := if_pos hc
  have hle : I.stride j * i ≤ i := by
    unfold Instr.stride
    split <;> omega
  rcases lt_or_ge 1 (I.inputLen j) with hwide | hnarrow
  · rw [hin] at hwide ⊢
    split at hwide
    · omega
    · rename_i hb
      rw [if_neg hb]
      omega
  · have hzero : I.stride j = 0 := if_neg fun h => absurd h.2 (by omega)
    rw [hzero, hin]
    split <;> omega

/-- An instruction that is no message depends on the registers it reads. -/
lemma exec_agree (hI : I.isPlain) (hR : M.toRegistry = R)
    (hW : I.code = .call → M.FillsOutputs ∨ ∀ r ∈ p.defines I, D r) (hrej : I.code ≠ .reject)
    (hD : ∀ r ∈ p.readRegs R I, D r) (hst : AgreeOn D s t) :
    Alike (AgreeOn fun r => D r ∨ r ∈ p.defines I) (p.exec M I s) (p.exec M I t) := by
  have hreg : ∀ {j i : ℕ}, I.code ≠ .dynIndex → I.code ≠ .call → I.code ≠ .density → j < 3 →
      I.reads j = true → i < I.inputLen j → D (I.operand j + i) :=
    fun hc hcall hden hj hread hi => hD _ (mem_readRegs hcall hden hc hj hread hi)
  have hone : I.code ≠ .call → I.outputLen = 1 → ∀ r, D r ∨ r ∈ p.defines I → D r ∨ r = I.dst :=
    fun hcall hlen r => Or.imp_right fun hr => by
      rw [mem_defines hcall, hlen] at hr
      omega
  have hrun : I.code ≠ .call → I.outputLen = I.len →
      ∀ r, D r ∨ r ∈ p.defines I → D r ∨ (I.dst ≤ r ∧ r < I.dst + I.len) :=
    fun hcall hlen r => Or.imp_right fun hr => by rwa [mem_defines hcall, hlen] at hr
  have hlen := hI.kind.outputLen
  cases hI.kind with
  | scalar hc =>
    have hne : I.code ≠ .dynIndex ∧ I.code ≠ .call ∧ I.code ≠ .density ∧ I.rule = I.code ∧
        I.reads 0 = true ∧ ∀ j, I.inputLen j = 1 := by
      cases hcode : I.code <;> rw [hcode] at hc <;> first
        | exact absurd hc (by decide)
        | simp [Instr.rule, Instr.reads, Instr.inputLen, hcode, Code.has, Code.flags]
    obtain ⟨h1, h2, h3, hrule, hread, hin⟩ := hne
    have ha := hst.1 _ (hreg (j := 0) (i := 0) h1 h2 h3 (by omega) hread (by rw [hin]; omega))
    rw [exec_of_isScalar M _ hc, exec_of_isScalar M _ hc]
    refine hst.put (hone h2 (Code.isScalar.outputLen hc)) ?_
    simp only [Instr.operand, Nat.add_zero] at ha
    rw [ha]
    refine M.scalar_congr _ _ (fun hb => ?_) fun hb => ?_
    · exact hst.1 _ (hreg (j := 1) (i := 0) h1 h2 h3 (by omega)
        (show I.rule.has .readB = true by rw [hrule]; exact hb)
        (by rw [hin]; omega))
    · exact hst.1 _ (hreg (j := 2) (i := 0) h1 h2 h3 (by omega)
        (show I.rule.has .readC = true by rw [hrule]; exact hb)
        (by rw [hin]; omega))
  | const hc =>
    simp only [exec, hc]
    exact hst.put (hone (by simp [hc]) (by simpa [hc] using hlen)) rfl
  | fill hc =>
    simp only [exec, hc]
    refine ⟨agreeOn_writeRun hst.1 fun r hr => ?_, hst.2⟩
    rw [List.length_replicate]
    exact hrun (by simp [hc]) (by simpa [hc] using hlen) r hr
  | constr hc =>
    simp only [exec, hc]
    exact hst.loop (hrun (by simp [hc]) (by simpa [hc] using hlen)) fun _ _ _ _ _ => rfl
  | mov hc =>
    have ha := hst.1 _ (hreg (j := 0) (i := 0) (by simp [hc]) (by simp [hc]) (by simp [hc]) (by omega)
      (by simp [Instr.reads, Instr.rule, hc, Code.has, Code.flags])
      (by simp [Instr.inputLen, hc, Code.has, Code.flags]))
    simp only [exec, hc]
    exact hst.put (hone (by simp [hc]) (by simpa [hc] using hlen)) (congrArg _ ha)
  | movr hc | logRange hc | expRange hc =>
    simp only [exec, hc]
    refine hst.loop (hrun (by simp [hc]) (by simpa [hc] using hlen)) fun i hi x y hxy => ?_
    have ha := hxy _ (hreg (j := 0) (by simp [hc]) (by simp [hc]) (by simp [hc]) (by omega)
      (by simp [Instr.reads, Instr.rule, hc, Code.has, Code.flags])
      (by simpa [Instr.inputLen, hc, Code.has, Code.flags] using hi))
    simp only [Instr.operand] at ha
    rw [ha]
  | dynIndex hc =>
    simp only [exec, hc]
    refine hst.put (hone (by simp [hc]) (by simpa [hc] using hlen)) ?_
    rw [hst.1 _ (hD _ (mem_readRegs_of_dynIndex hc (Or.inl rfl)))]
    unfold StanMath.index
    split
    · rename_i hidx
      simp only [Bool.and_eq_true, decide_eq_true_eq] at hidx
      exact congrArg _ (hst.1 _ (hD _ (mem_readRegs_of_dynIndex hc (by omega))))
    · rfl
  | extremaRange hc | lseRange hc | softmax hc =>
    have hread : (Span.mk I.a I.len).read s.reg = (Span.mk I.a I.len).read t.reg := by
      refine hst.read fun r hr => ?_
      obtain ⟨hle, hlt⟩ := Span.mem_regs.1 hr
      simp only at hle hlt
      obtain ⟨i, rfl⟩ := Nat.exists_eq_add_of_le hle
      exact hreg (j := 0) (by simp [hc]) (by simp [hc]) (by simp [hc]) (by omega)
        (by simp [Instr.reads, Instr.rule, hc, Code.has, Code.flags])
        (by simp [Instr.inputLen, hc, Code.has, Code.flags]; omega)
    simp only [exec, hc, hread]
    first
      | exact hst.put (hone (by simp [hc]) (by simpa [hc] using hlen)) rfl
      | exact hst.loop (hrun (by simp [hc]) (by simpa [hc] using hlen)) fun _ _ _ _ _ => rfl
  | dot hc =>
    simp only [exec, hc]
    refine hst.put (hone (by simp [hc]) (by simpa [hc] using hlen)) (congrArg _ (congrArg _
      (List.map_congr_left fun i hi => ?_)))
    rw [List.mem_range] at hi
    have ha := hst.1 _ (hreg (j := 0) (i := i) (by simp [hc]) (by simp [hc]) (by simp [hc]) (by omega)
      (by simp [Instr.reads, Instr.rule, hc, Code.has, Code.flags])
      (by simpa [Instr.inputLen, hc, Code.has, Code.flags] using hi))
    have hb := hst.1 _ (hreg (j := 1) (i := i) (by simp [hc]) (by simp [hc]) (by simp [hc]) (by omega)
      (by simp [Instr.reads, Instr.rule, hc, Code.has, Code.flags])
      (by simpa [Instr.inputLen, hc, Code.has, Code.flags] using hi))
    simp only [Instr.operand] at ha hb
    rw [ha, hb]
  | density hc =>
    simp only [exec, hc]
    refine hst.put (hone (by simp [hc]) (by simpa [hc] using hlen)) (congrArg _
      (List.map_congr_left fun r hr => hst.1 r (hD r ?_)))
    rw [readRegs, if_pos hc, ← hR]
    exact hr
  | jz hc | jmp hc =>
    simp only [exec, hc]
    refine ⟨fun r hr => hst.1 r (hr.resolve_right fun hr => ?_), hst.2⟩
    rw [mem_defines (by simp [hc]), hlen] at hr
    simp [hc] at hr
    omega
  | call hc =>
    simp only [exec, hc]
    cases hget : p.calls[I.a]? with
    | none => exact rfl
    | some call =>
      dsimp only
      cases hf : call.forward with
      | none => exact rfl
      | some f =>
        dsimp only
        rw [hst.2, List.map_congr_left fun i hi => hst.read fun r hr => hD r
          (mem_readRegs_of_call hc hget hi hr)]
        cases hfwd : M.forward f call.shape (call.ins.map fun i => i.read t.reg) t.eff with
        | error e => exact rfl
        | ok r =>
          refine ⟨agreeOn_writeRun (D := fun r => D r ∨ r ∈ p.defines I)
            (agreeOn_writeRun hst.1 fun w hw => ?_) fun w hw => Or.inl hw, rfl⟩
          rcases hW hc with hW | hdef
          swap
          · exact Or.inl (hw.elim id (hdef w))
          have hout := hW f call.shape _ _ r hfwd
          rw [defines, if_pos hc, hget, Span.mem_regs] at hw
          rw [List.length_take]
          change call.out.len ≤ _ at hout
          rw [min_eq_left hout]
          exact hw
  | reject hc => exact absurd hc hrej
  | range hc =>
    simp only [exec, hc]
    split
    · rename_i hsub
      have hrule : I.rule = I.sub := if_pos hc
      refine hst.loop (hrun (by simp [hc]) (by simpa [hc] using hlen)) fun i hi x y hxy => ?_
      have hval : ∀ j < 3, I.reads j = true →
          x (I.operand j + I.stride j * i) = y (I.operand j + I.stride j * i) := fun j hj hread =>
        hxy _ (hreg (by simp [hc]) (by simp [hc]) (by simp [hc]) hj hread (stride_lt hc j hi))
      have h0 := hval 0 (by omega) (by simp [Instr.reads, hrule, Code.elementwise.noInputs hsub])
      simp only [Instr.operand] at h0
      rw [h0]
      exact M.scalar_congr _ _ 
        (fun hb => hval 1 (by omega) (show I.rule.has .readB = true by rw [hrule]; exact hb))
        fun hb => hval 2 (by omega) (show I.rule.has .readC = true by rw [hrule]; exact hb)
    · rfl

/-- Two files that agree below register `n` and on the effects. -/
def SameBelow (n : ℕ) (s t : File V S) : Prop := (∀ r < n, s.reg r = t.reg r) ∧ s.eff = t.eff

/-- An instruction of the file leaves files that agree on it alike. -/
lemma exec_congr (h : p.Checked R k I) (hR : M.toRegistry = R) (hst : SameBelow p.nRegs s t) :
    Alike (SameBelow p.nRegs) (p.exec M I s) (p.exec M I t) := by
  have hst' : AgreeOn (· < p.nRegs) s t := hst
  by_cases hrej : I.code = .reject
  · obtain ⟨message, hm, hvalues⟩ := h.reject hrej
    simp only [exec, hrej, hm]
    rw [List.map_congr_left fun i hi => hst'.read fun r hr =>
      (Span.mem_regs.1 hr).2.trans_le (hvalues i hi)]
    exact rfl
  · have hdef : ∀ r ∈ p.defines I, r < p.nRegs := fun r hr => h.writes r (mem_writes_of_defines hr)
    exact (exec_agree h.plain hR (fun _ => Or.inr hdef) hrej (fun r => readRegs_lt h) hst').mono
      fun _ _ hab => ⟨fun r hr => hab.1 r (Or.inl hr), hab.2⟩

end IslandProg

end Stanli
