import Stanli.Program.GenAdjoint

/-!
# What an accepted program satisfies

`IslandProg.Checked` restates what `gen_adjoint` checks of one instruction before it emits anything,
as facts about registers.
-/

namespace Stanli

open Program

namespace Program

lemma inRange_iff {n0 r len : ℕ} : inRange n0 r len = true ↔ r + len ≤ n0 := by
  simp only [inRange, Bool.and_eq_true, decide_eq_true_eq]
  omega

@[simp] lemma Span.mem_regs {s : Span} {r : ℕ} : r ∈ s.regs ↔ s.reg ≤ r ∧ r < s.reg + s.len := by
  simp only [Span.regs, List.mem_map, List.mem_range]
  constructor
  · rintro ⟨k, hk, rfl⟩
    omega
  · intro h
    exact ⟨r - s.reg, by omega, by omega⟩

lemma operandInRange_iff {n0 k len : ℕ} {I : Instr} (h : I.operandInRange n0 k len = true) :
    I.operand k + len ≤ n0 ∧ (2 ≤ k → 0 ≤ I.c) := by
  simp only [Instr.operandInRange, Bool.and_eq_true, Bool.or_eq_true, decide_eq_true_eq,
    inRange_iff] at h
  exact ⟨h.2, fun hk => h.1.resolve_left (by omega)⟩

/-- The instructions that have an adjoint, with the jumps, `REJECT` and `EXTREMA_RANGE`. -/
def Instr.isPlain (I : Instr) : Prop :=
  I.rule.has .noAdjoint = true → I.isJump = true ∨ I.code = .reject ∨ I.code = .extremaRange

/-- Control goes from an instruction that is no branch to the one behind it. -/
lemma next_of_not_jump {V E S : Type*} [Field V] {M : StanMath V E S} {I : Instr}
    (h : I.isJump = false) (pc : ℕ) (s : File V S) : I.next M pc s = pc + 1 := by
  simp only [Instr.isJump, decide_eq_false_iff_not, not_or] at h
  unfold Instr.next
  split <;> simp_all

end Program

namespace IslandProg

variable {V : Type*} {R : Registry} {p : IslandProg V}

/-- The checks of one instruction, as facts. -/
structure Checked (R : Registry) (p : IslandProg V) (pc : ℕ) (I : Instr) : Prop where
  jump : I.isJump = true → pc < I.dst ∧ I.dst ≤ p.code.length
  plain : I.isPlain
  reject : I.code = .reject →
    ∃ message, p.messages[I.a]? = some message ∧ ∀ v ∈ message.values, v.reg + v.len ≤ p.nRegs
  dynIndex : I.code = .dynIndex →
    0 < I.len ∧ 0 ≤ I.c ∧ I.a + I.c.toNat + I.len ≤ p.nRegs ∧ I.b < p.nRegs
  call : I.code = .call → ∃ call, p.calls[I.a]? = some call ∧ call.forward.isSome ∧
    call.backward.isSome ∧ call.out.reg + call.out.len ≤ p.nRegs ∧
    (call.scratch.len ≠ 0 → call.scratch.reg + call.scratch.len ≤ p.nRegs) ∧
    ∀ i ∈ call.ins, i.reg + i.len ≤ p.nRegs
  writes : ∀ r ∈ p.writes I, r < p.nRegs
  ranged : I.isRangedDensity R = true → I.a + R.densityArity I.len ≤ p.nRegs
  operands : I.code ≠ .dynIndex → I.code ≠ .call → I.isRangedDensity R = false →
    I.rule.has .noInputs = false → I.a < p.nRegs ∧ I.b < p.nRegs ∧ I.c.toNat < p.nRegs
  spans : I.code ≠ .dynIndex → I.code ≠ .call → I.isRangedDensity R = false →
    ∀ k < 3, I.reads k = true → I.operand k + I.inputLen k ≤ p.nRegs
  broadcast : I.code = .range → ∀ k < 3, I.reads k = true → I.inputLen k = 1 → 1 < I.outputLen →
    I.operand k < I.dst ∨ I.dst + I.outputLen ≤ I.operand k
  disjoint : I.code ≠ .dynIndex → I.code ≠ .call → I.isRangedDensity R = false →
    ∀ k < 3, I.reads k = true → 1 < I.inputLen k →
      I.outputLen = 0 ∨ I.dst + I.outputLen ≤ I.operand k ∨ I.operand k + I.inputLen k ≤ I.dst ∨
      ((I.rule.has .rangeOutput = true ∨ I.code = .range) ∧ I.dst = I.operand k)

lemma validOperands_spec {I : Instr} (h : p.validOperands R I = true) (hd : I.code ≠ .dynIndex)
    (hc : I.code ≠ .call) (hr : I.isRangedDensity R = false) :
    (I.rule.has .noInputs = true ∨
      inRange p.nRegs I.a 1 = true ∧ inRange p.nRegs I.b 1 = true ∧
        I.operandInRange p.nRegs 2 1 = true) ∧
    ∀ k < 3, I.reads k = true → I.operandInRange p.nRegs k (I.inputLen k) = true ∧
      ¬(I.inputLen k = 1 ∧ 1 < I.outputLen ∧ I.code = .range ∧
        overlaps I.dst I.outputLen (I.operand k) 1 = true) ∧
      ¬(1 < I.inputLen k ∧ overlaps I.dst I.outputLen (I.operand k) (I.inputLen k) = true ∧
        ¬((I.rule.has .rangeOutput = true ∨ I.code = .range) ∧ I.dst = I.operand k)) := by
  rw [validOperands, if_neg (by tauto), hr] at h
  simp only [Bool.false_eq_true, if_false, Bool.and_eq_true, Bool.or_eq_true, List.all_eq_true,
    List.mem_range, Bool.not_eq_true', Bool.and_eq_false_iff, decide_eq_false_iff_not,
    Bool.not_eq_false', decide_eq_true_eq] at h
  refine ⟨by tauto, fun k hk hread => ?_⟩
  obtain hno | ⟨⟨h1, h2⟩, h3⟩ := h.2 k hk
  · exact absurd hread (by simp [hno])
  · refine ⟨h1, ?_, ?_⟩
    · rintro ⟨ha, hb, hc', hd'⟩
      rcases h2 with ((h2 | h2) | h2) | h2 <;> simp_all
    · rintro ⟨ha, hb, hc'⟩
      rcases h3 with (h3 | h3) | h3
      · exact h3 ha
      · simp_all
      · exact hc' ⟨h3.1, h3.2⟩

lemma overlaps_eq_true {x nx y ny : ℕ} :
    overlaps x nx y ny = true ↔ 0 < nx ∧ 0 < ny ∧ x < y + ny ∧ y < x + nx := by
  simp [overlaps, and_assoc]

/-- Every instruction of an accepted program is checked. -/
lemma checked_of_accepts (h : p.accepts R = true) {pc : ℕ} {I : Instr}
    (hI : p.code[pc]? = some I) : p.Checked R pc I := by
  simp only [accepts, Bool.and_eq_true, List.all_eq_true] at h
  obtain ⟨⟨⟨⟨⟨⟨hvalid, hwrites⟩, -⟩, hoperands⟩, -⟩, -⟩, -⟩ := h
  have hmem := List.mem_of_getElem? hI
  have hv := hvalid (I, pc) (by simp [List.mem_zipIdx_iff_getElem?, hI])
  have hw : ∀ r ∈ p.writes I, r < p.nRegs := by simpa [writesInRange] using hwrites I hmem
  have ho := hoperands I hmem
  simp only [validInstr, Bool.and_eq_true, Bool.or_eq_true, Bool.not_eq_true',
    decide_eq_true_eq] at hv
  obtain ⟨⟨⟨⟨hjump, hreject⟩, hplain⟩, hdyn⟩, hcall⟩ := hv
  refine ⟨fun hj => ?_, fun hno => ?_, fun hc => ?_, fun hc => ?_, fun hc => ?_, hw, fun hr => ?_,
    fun hd hc hr hno => ?_, fun hd hc hr k hk hread => ?_, fun hc k hk hread h1 hlt => ?_,
    fun hd hc hr k hk hread hlt => ?_⟩
  · exact hjump.resolve_left (by simp [hj])
  · rcases hplain with (hp | hp) | hp
    · exact absurd hno (by simp [hp])
    · exact Or.inl hp
    · exact Or.inr hp
  · have := hreject.resolve_left (by simp [hc])
    cases hm : p.messages[I.a]? with
    | none => simp [hm] at this
    | some message =>
      rw [hm] at this
      refine ⟨message, rfl, fun v hv => ?_⟩
      exact inRange_iff.1 (List.all_eq_true.1 this v hv)
  · obtain ⟨⟨⟨⟨⟨h1, -⟩, h2⟩, -⟩, h3⟩, h4⟩ := hdyn.resolve_left (by simp [hc])
    exact ⟨h1, h2, inRange_iff.1 h3, inRange_iff.1 h4⟩
  · have := hcall.resolve_left (by simp [hc])
    cases hm : p.calls[I.a]? with
    | none => simp [hm] at this
    | some call =>
      rw [hm] at this
      simp only [Bool.and_eq_true, Bool.or_eq_true, decide_eq_true_eq, List.all_eq_true] at this
      obtain ⟨⟨⟨⟨⟨-, h1⟩, h2⟩, h3⟩, h4⟩, h5⟩ := this
      exact ⟨call, rfl, h1, h2, inRange_iff.1 h3, fun hne => inRange_iff.1 (h4.resolve_left hne),
        fun i hi => inRange_iff.1 (h5 i hi)⟩
  · have hcode : I.code = .density := by
      simp only [Instr.isRangedDensity, Bool.and_eq_true, decide_eq_true_eq] at hr
      exact hr.1
    rw [validOperands, if_neg (by simp [hcode]), hr] at ho
    exact inRange_iff.1 (by simpa using ho)
  · obtain ⟨h1, h2, h3⟩ := (validOperands_spec ho hd hc hr).1.resolve_left (by simp [hno])
    have ha := inRange_iff.1 h1
    have hb := inRange_iff.1 h2
    have hc' := (operandInRange_iff h3).1
    simp only [Instr.operand] at hc'
    omega
  · exact (operandInRange_iff ((validOperands_spec ho hd hc hr).2 k hk hread).1).1
  · have hr : I.isRangedDensity R = false := by simp [Instr.isRangedDensity, hc]
    have := ((validOperands_spec ho (by simp [hc]) (by simp [hc]) hr).2 k hk hread).2.1
    rw [overlaps_eq_true] at this
    by_contra hcon
    exact this ⟨h1, hlt, hc, by omega, by omega, by omega, by omega⟩
  · have := ((validOperands_spec ho hd hc hr).2 k hk hread).2.2
    rw [overlaps_eq_true] at this
    by_contra hcon
    rw [not_or, not_or, not_or] at hcon
    exact this ⟨hlt, ⟨by omega, by omega, by omega, by omega⟩, hcon.2.2.2⟩

/-- An accepted program only branches forward. -/
lemma forward_of_accepts {V E S : Type*} [Field V] {R : Registry} {p : IslandProg V}
    (h : p.accepts R = true) (M : StanMath V E S) : (p.machine M).Forward p.code := by
  intro pc I s hI
  change pc < I.next M pc s
  have hjump := (checked_of_accepts h hI).jump
  unfold Instr.next
  split
  · have := hjump (by simp [Instr.isJump, *])
    split <;> omega
  · exact (hjump (by simp [Instr.isJump, *])).1
  · omega

end IslandProg

end Stanli
