import Stanli.Program.Rules

/-!
# What an instruction contributes

The contributions of an instruction go to registers it read, and depend on the adjoints of what it
wrote only.
-/

namespace Stanli

open Program

variable {V E S : Type*} [Field V]

/-- The partials of a scalar rule are those of the operands it reads. -/
lemma StanMath.mem_partials (M : StanMath V E S) {code : Code} (h : code.elementwise = true) {law : ℕ}
    {x y z out : V} {e : ℕ × V} (he : e ∈ M.partials code law x y z out) :
    e.1 = 0 ∨ (e.1 = 1 ∧ code.has .readB = true) ∨ (e.1 = 2 ∧ code.has .readC = true) := by
  cases code with
  | add | sub | mul | div | pow | fmax | fmin | lse2 | logDiffExp | lmultiply | logMix | fma =>
    simp only [StanMath.partials, List.mem_cons, List.not_mem_nil, or_false] at he
    rcases he with rfl | rfl | rfl <;> simp [Code.has, Code.flags]
  | neg | exp | log | sqrt | square | inv | fabs | invLogit | log1m | log1pExp | tanh | erfc | log1p
    | log1mExp | invSquare =>
    simp only [StanMath.partials, List.mem_cons, List.not_mem_nil, or_false] at he
    exact Or.inl (by rw [he])
  | _ => exact absurd h (by decide)

namespace IslandProg

/-- The registers whose values an instruction's derivative is taken at and goes to: of a density all
its arguments. -/
def valueOperands (R : Registry) (I : Instr) : List ℕ :=
  if I.code = .density then I.densityArgs R else sweptOperands R I

variable {R : Registry} {p : IslandProg V} {M : StanMath V E S} {k : ℕ} {I : Instr}

omit [Field V] in
lemma mem_valueOperands (hden : I.code ≠ .density) (hdyn : I.code ≠ .dynIndex) {j i : ℕ} (hj : j < 3)
    (hread : I.reads j = true) (hi : i < I.inputLen j) : I.operand j + i ∈ valueOperands R I := by
  have hran : I.isRangedDensity R = false := by simp [Instr.isRangedDensity, hden]
  unfold valueOperands sweptOperands
  simp only [hden, hran, hdyn, if_false, Bool.false_eq_true, List.mem_flatMap, List.mem_range]
  refine ⟨j, hj, ?_⟩
  rw [if_pos hread]
  exact Span.mem_regs.2 ⟨Nat.le_add_right .., Nat.add_lt_add_left hi _⟩

omit [Field V] in
/-- What the derivative is taken at is read. -/
lemma valueOperands_subset (hcall : I.code ≠ .call) {r : ℕ} (h : r ∈ valueOperands R I) :
    r ∈ p.readRegs R I := by
  unfold valueOperands at h
  unfold readRegs
  split at h
  · rwa [if_pos ‹_›]
  · rename_i hden
    have hran : I.isRangedDensity R = false := by simp [Instr.isRangedDensity, hden]
    rw [if_neg hden, readSpans, callOf_eq_none hcall]
    unfold sweptOperands at h
    simp only [hran, Bool.false_eq_true, if_false] at h ⊢
    split at h
    · rename_i hdyn
      rw [if_pos hdyn]
      exact List.mem_flatMap.2 ⟨_, List.mem_cons_self .., h⟩
    · rename_i hdyn
      rw [if_neg hdyn]
      obtain ⟨j, hj, hr⟩ := List.mem_flatMap.1 h
      split at hr
      · rename_i hread
        exact List.mem_flatMap.2 ⟨⟨I.operand j, I.inputLen j⟩,
          List.mem_flatMap.2 ⟨j, hj, by simp [hread]⟩, hr⟩
      · simp at hr

/-- A partial derivative of an instruction that ran: of an element it wrote, with respect to a
register it read. -/
lemma jacobian_spec (hch : p.Checked R k I) (hR : M.toRegistry = R) {s s' : File V S}
    (hex : p.exec M I s = .ok s') {e : ℕ × ℕ × V} (he : e ∈ I.jacobian M s.reg s'.reg) :
    e.1 < I.outputLen ∧ e.2.1 ∈ valueOperands R I := by
  have hkind := hch.plain.kind
  have hlen := hkind.outputLen
  have hmem := fun (hden : I.code ≠ .density) (hdyn : I.code ≠ .dynIndex) {j i : ℕ} =>
    mem_valueOperands (R := R) (I := I) hden hdyn (j := j) (i := i)
  -- The instructions whose operand `a` is a range.
  have hrun : ∀ i < I.len, I.code ≠ .density → I.code ≠ .dynIndex → I.reads 0 = true →
      I.inputLen 0 = I.len → I.a + i ∈ valueOperands R I := fun i hi hden hdyn hread hin =>
    hmem hden hdyn (j := 0) (by omega) hread (by omega)
  cases hkind with
  | scalar hc =>
    rw [Code.isScalar.outputLen hc]
    by_cases hel : I.code.elementwise = true
    · obtain ⟨hcall, hden, hext, hdyn, hrange, hrule, -, hin⟩ := elementwise_instr hel
      rw [jacobian_of_elementwise hel] at he
      obtain ⟨d, hd, rfl⟩ := List.mem_map.1 he
      have hread : d.1 < 3 ∧ I.reads d.1 = true := by
        rcases M.mem_partials hel hd with h0 | ⟨h1, hb⟩ | ⟨h2, hb⟩
        · simp [h0, Instr.reads, hrule, Code.elementwise.noInputs hel]
        · simp [h1, Instr.reads, hrule, hb]
        · simp [h2, Instr.reads, hrule, hb]
      exact ⟨Nat.zero_lt_one, hmem hden hdyn (i := 0) hread.1 hread.2 (by rw [hin]; omega)⟩
    · exfalso
      have hdis : I.code.isDiscrete = true := by simpa [Code.isScalar, hel] using hc
      revert he
      cases hcode : I.code <;> rw [hcode] at hdis <;> first
        | exact absurd hdis (by decide)
        | simp [Instr.jacobian, hcode, Code.elementwise]
  | const hc | fill hc | constr hc | jz hc | jmp hc | call hc | reject hc =>
    simp [Instr.jacobian, hc, Code.elementwise] at he
  | mov hc =>
    simp only [Instr.jacobian, hc, List.mem_singleton] at he
    subst he
    exact ⟨by simp [hlen, hc], hmem (by simp [hc]) (by simp [hc]) (j := 0) (i := 0) (by omega)
      (by simp [Instr.reads, Instr.rule, hc, Code.has, Code.flags])
      (by simp [Instr.inputLen, hc, Code.has, Code.flags])⟩
  | movr hc | logRange hc | expRange hc =>
    simp only [Instr.jacobian, hc] at he
    obtain ⟨i, hi, rfl⟩ := List.mem_map.1 he
    rw [List.mem_range] at hi
    exact ⟨by simpa [hlen, hc] using hi, hrun i hi (by simp [hc]) (by simp [hc])
      (by simp [Instr.reads, Instr.rule, hc, Code.has, Code.flags])
      (by simp [Instr.inputLen, hc, Code.has, Code.flags])⟩
  | lseRange hc | extremaRange hc =>
    simp only [Instr.jacobian, hc] at he
    obtain ⟨i, hi, rfl⟩ := List.mem_map.1 he
    rw [List.mem_range] at hi
    exact ⟨by simp [hlen, hc], hrun i hi (by simp [hc]) (by simp [hc])
      (by simp [Instr.reads, Instr.rule, hc, Code.has, Code.flags])
      (by simp [Instr.inputLen, hc, Code.has, Code.flags])⟩
  | dynIndex hc =>
    simp only [Instr.jacobian, hc, List.mem_singleton] at he
    subst he
    refine ⟨by simp [hlen, hc], ?_⟩
    have := exec_dynIndex hch hc hex
    unfold valueOperands sweptOperands
    simp only [hc, Instr.isRangedDensity, reduceCtorEq, decide_false, Bool.false_and,
      Bool.false_eq_true, if_false, if_true, Span.mem_regs]
    omega
  | dot hc =>
    simp only [Instr.jacobian, hc] at he
    obtain ⟨i, hi, hd⟩ := List.mem_flatMap.1 he
    rw [List.mem_range] at hi
    simp only [List.mem_cons, List.not_mem_nil, or_false] at hd
    rcases hd with rfl | rfl
    · exact ⟨by simp [hlen, hc], hrun i hi (by simp [hc]) (by simp [hc])
        (by simp [Instr.reads, Instr.rule, hc, Code.has, Code.flags])
        (by simp [Instr.inputLen, hc, Code.has, Code.flags])⟩
    · exact ⟨by simp [hlen, hc], hmem (by simp [hc]) (by simp [hc]) (j := 1) (by omega)
        (by simp [Instr.reads, Instr.rule, hc, Code.has, Code.flags])
        (by simpa [Instr.inputLen, hc, Code.has, Code.flags] using hi)⟩
  | softmax hc =>
    simp only [Instr.jacobian, hc] at he
    obtain ⟨j, hj, hd⟩ := List.mem_flatMap.1 he
    obtain ⟨i, hi, rfl⟩ := List.mem_map.1 hd
    rw [List.mem_range] at hi hj
    exact ⟨by simpa [hlen, hc] using hi, hrun j hj (by simp [hc]) (by simp [hc])
      (by simp [Instr.reads, Instr.rule, hc, Code.has, Code.flags])
      (by simp [Instr.inputLen, hc, Code.has, Code.flags])⟩
  | density hc =>
    simp only [Instr.jacobian, hc, hR] at he
    obtain ⟨i, hi, rfl⟩ := List.mem_map.1 he
    rw [List.mem_range] at hi
    refine ⟨by simp [hlen, hc], ?_⟩
    rw [valueOperands, if_pos hc, List.getD_eq_getElem _ _ hi]
    exact List.getElem_mem hi
  | range hc =>
    have hsub := exec_range hc hex
    have hrule : I.rule = I.sub := if_pos hc
    simp only [Instr.jacobian, hc] at he
    obtain ⟨i, hi, he⟩ := List.mem_flatMap.1 he
    obtain ⟨d, hd, rfl⟩ := List.mem_map.1 he
    rw [List.mem_range] at hi
    have hread : d.1 < 3 ∧ I.reads d.1 = true := by
      rcases M.mem_partials hsub hd with h0 | ⟨h1, hb⟩ | ⟨h2, hb⟩
      · simp [h0, Instr.reads, hrule, Code.elementwise.noInputs hsub]
      · simp [h1, Instr.reads, hrule, hb]
      · simp [h2, Instr.reads, hrule, hb]
    refine ⟨by simpa [hlen, hc] using hi, hmem (by simp [hc]) (by simp [hc]) hread.1 hread.2 ?_⟩
    exact stride_lt hc _ hi

/-- A contribution of an instruction goes to a register it read. -/
lemma pulled_reads (hch : p.Checked R k I) (hR : M.toRegistry = R) {s s' : File V S}
    (hex : p.exec M I s = .ok s') {seed : ℕ → V} {e : ℕ × V}
    (he : e ∈ p.pulled M I s.reg s'.reg seed) : e.1 ∈ p.readRegs R I ∧ e.1 < p.nRegs := by
  suffices hread : e.1 ∈ p.readRegs R I from ⟨hread, readRegs_lt hch hread⟩
  unfold pulled at he
  split at he
  · rename_i hc
    obtain ⟨call, hget, -, hback, -⟩ := hch.call hc
    obtain ⟨f, hf⟩ := Option.isSome_iff_exists.1 hback
    simp only [hget, hf] at he
    obtain ⟨s, hs, hr⟩ := mem_pulls he
    exact mem_readRegs_of_call hc hget hs hr
  · rename_i hc
    obtain ⟨d, hd, rfl⟩ := List.mem_map.1 he
    exact valueOperands_subset hc (jacobian_spec hch hR hex hd).2

/-- The contributions depend on the adjoints of what the instruction wrote. -/
lemma pulled_congr (hch : p.Checked R k I) (hR : M.toRegistry = R) {s s' : File V S}
    (hex : p.exec M I s = .ok s') {seed seed' : ℕ → V} (h : ∀ w ∈ p.defines I, seed w = seed' w) :
    p.pulled M I s.reg s'.reg seed = p.pulled M I s.reg s'.reg seed' := by
  unfold pulled
  split
  · rename_i hc
    obtain ⟨call, hget, -⟩ := hch.call hc
    rw [defines, if_pos hc, hget] at h
    have : call.out.read seed = call.out.read seed' := List.map_congr_left h
    simp only [hget, this]
  · rename_i hc
    rw [defines_of_ne_call hc] at h
    refine List.map_congr_left fun d hd => ?_
    have := (jacobian_spec hch hR hex hd).1
    rw [h _ (Span.mem_regs.2 ⟨Nat.le_add_right .., Nat.add_lt_add_left this _⟩)]

/-- What is kept of the contributions depends on the adjoints of what the instruction wrote. -/
lemma keptPulls_congr (hch : p.Checked R k I) (hR : M.toRegistry = R) {s s' : File V S}
    (hex : p.exec M I s = .ok s') {seed seed' : ℕ → V} (h : ∀ w ∈ p.defines I, seed w = seed' w) :
    p.keptPulls R M k I s.reg s'.reg seed = p.keptPulls R M k I s.reg s'.reg seed' := by
  unfold keptPulls
  rw [pulled_congr hch hR hex h]

omit [Field V] in
lemma mem_of_mem_keptPulls [Field V] {x y seed : ℕ → V} {e : ℕ × V}
    (he : e ∈ p.keptPulls R M k I x y seed) : e ∈ p.pulled M I x y seed := by
  unfold keptPulls at he
  split at he
  · simp at he
  · split at he
    · exact (List.mem_filter.1 he).1
    · exact he

end IslandProg

end Stanli
