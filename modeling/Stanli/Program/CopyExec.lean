import Stanli.Program.Agree
import Stanli.Program.CopyProp

/-!
# Reading the original instead of the copy

An instruction whose operands are replaced by registers that hold the same values does the same, as
long as no element is read after the instruction itself has overwritten it (`exec_renamed`).
-/

namespace Stanli

open Program

namespace Program

variable {V E S : Type*}

/-- The instructions that write their elements one by one and read operands in between. -/
def Instr.loops (I : Instr) : Bool :=
  decide (I.code = .movr ∨ I.code = .logRange ∨ I.code = .expRange ∨ I.code = .range)

/-- How far operand `k` moves from one element to the next. -/
def Instr.step (I : Instr) (k : ℕ) : ℕ := if I.code = .range then I.stride k else 1

/-- With operand `k` at `reg`, an element is read after the instruction has overwritten it. -/
def Instr.ReadsOwnWrites (I : Instr) (k reg : ℕ) : Prop :=
  I.loops = true ∧ ∃ i < I.outputLen, ∃ j < i, reg + I.step k * i = I.dst + j

instance (I : Instr) (k reg : ℕ) : Decidable (I.ReadsOwnWrites k reg) :=
  inferInstanceAs (Decidable (_ ∧ _))

/-- Two positions of operand `k` give the same elements. -/
def SameOperand (x : ℕ → V) (I : Instr) (k len a b : ℕ) : Prop :=
  a = b ∨ (∀ i < len, x (a + i) = x (b + i)) ∧ ¬I.ReadsOwnWrites k a ∧ ¬I.ReadsOwnWrites k b

/-- An instruction with some operands replaced by registers of the same values. -/
structure Renamed (R : Registry) (x : ℕ → V) (I J : Instr) : Prop where
  code : J.code = I.code
  sub : J.sub = I.sub
  bcast : J.bcast = I.bcast
  law : J.law = I.law
  dst : J.dst = I.dst
  len : J.len = I.len
  same : ∀ o ∈ I.readOperands R, SameOperand x I o.1 o.2 (I.operand o.1) (J.operand o.1)
  keep : ∀ k < 3, (∀ o ∈ I.readOperands R, o.1 ≠ k) → J.operand k = I.operand k

/-- The instructions the pass rewrites. -/
def Instr.isEligible (I : Instr) : Prop := I.isJump = true ∨ I.rule.has .noAdjoint = false

lemma Instr.isEligible.plain {I : Instr} (h : I.isEligible) : I.isPlain := by
  intro hno
  rcases h with h | h
  · exact Or.inl h
  · simp [hno] at h

lemma Instr.isEligible.code_ne {I : Instr} (h : I.isEligible) :
    I.code ≠ .extremaRange ∧ I.code ≠ .reject := by
  constructor <;> intro hc <;>
    simp [isEligible, isJump, rule, hc, Code.has, Code.flags] at h

lemma Instr.isEligible.code_ne_transform {I : Instr} (h : I.isEligible) : I.code ≠ .transform := by
  intro hc
  rcases h with h | h <;> simp [isJump, rule, hc, Code.has, Code.flags] at h

lemma SameOperand.value {x : ℕ → V} {I : Instr} {k len a b i : ℕ} (h : SameOperand x I k len a b)
    (hi : i < len) : x (a + i) = x (b + i) := by
  rcases h with rfl | ⟨h, -⟩
  · rfl
  · exact h i hi

/-- The elements of a loop agree also in the file that the loop has written so far. -/
lemma SameOperand.loop {x y : ℕ → V} {I : Instr} {k len a b i : ℕ} (h : SameOperand x I k len a b)
    (hloops : I.loops = true) (hi : i < I.outputLen) (hlen : I.step k * i < len)
    (hy : ∀ r, r < I.dst ∨ I.dst + i ≤ r → y r = x r) :
    y (a + I.step k * i) = y (b + I.step k * i) := by
  rcases h with rfl | ⟨h, ha, hb⟩
  · rfl
  · have hfree : ∀ {c}, ¬I.ReadsOwnWrites k c →
        c + I.step k * i < I.dst ∨ I.dst + i ≤ c + I.step k * i := by
      intro c hc
      by_contra hcon
      exact hc ⟨hloops, i, hi, c + I.step k * i - I.dst, by omega, by omega⟩
    rw [hy _ (hfree ha), hy _ (hfree hb), h _ hlen]

/-- Loops whose elements are computed alike from the file written so far end alike. -/
lemma writeLoop_congr {f g : ℕ → (ℕ → V) → Except E V} {dst n : ℕ} {x : ℕ → V}
    (hfg : ∀ i < n, ∀ y : ℕ → V, (∀ r, r < dst ∨ dst + i ≤ r → y r = x r) → f i y = g i y) :
    writeLoop f dst n x = writeLoop g dst n x := by
  induction n with
  | zero => rfl
  | succ n ih =>
    rw [writeLoop_succ, writeLoop_succ, ih fun i hi => hfg i (by omega)]
    cases hn : writeLoop g dst n x with
    | error e => rfl
    | ok y =>
      change (f n y).map _ = (g n y).map _
      rw [hfg n (Nat.lt_succ_self n) y fun r hr => writeLoop_frame hn hr]

variable {R : Registry} {x : ℕ → V} {I J : Instr}

/-- Operand `k` is one of the operands that are read. -/
lemma Renamed.value (h : Renamed R x I J) {k len i : ℕ} (hmem : (k, len) ∈ I.readOperands R)
    (hi : i < len) : x (J.operand k + i) = x (I.operand k + i) := ((h.same _ hmem).value hi).symm

lemma Renamed.rule (h : Renamed R x I J) : J.rule = I.rule := by
  rw [Instr.rule, Instr.rule, h.code, h.sub]

lemma Renamed.reads (h : Renamed R x I J) (k : ℕ) : J.reads k = I.reads k := by
  unfold Instr.reads
  rw [h.rule]

lemma Renamed.inputLen (h : Renamed R x I J) (k : ℕ) : J.inputLen k = I.inputLen k := by
  unfold Instr.inputLen
  rw [h.code, h.bcast, h.len]

lemma Renamed.stride (h : Renamed R x I J) (k : ℕ) : J.stride k = I.stride k := by
  unfold Instr.stride
  rw [h.reads, h.inputLen]

variable [Field V] {M : StanMath V E S} {p q : Program V}

omit [Field V] in
lemma readOperands_of_plain {I : Instr} (hdyn : I.code ≠ .dynIndex) (hden : I.code ≠ .density)
    (hno : I.rule.has .noInputs = false) : I.readOperands R =
      (0, I.inputLen 0) :: ((if I.rule.has .readB then [(1, I.inputLen 1)] else []) ++
        if I.rule.has .readC then [(2, I.inputLen 2)] else []) := by
  rw [Instr.readOperands, if_neg hdyn, if_neg hden, hno]
  rfl

/-- An instruction that is no `CALL` does the same with renamed operands. -/
theorem exec_renamed (hI : I.isEligible) (hcall : I.code ≠ .call) {s : File V S}
    (h : Renamed M.toRegistry s.reg I J) (hpool : q.pool = p.pool) :
    q.exec M J s = p.exec M I s := by
  have hJ := h.code
  have hval : ∀ {k n i : ℕ}, (k, n) ∈ I.readOperands M.toRegistry → i < n →
      s.reg (J.operand k + i) = s.reg (I.operand k + i) := fun hmem hi => h.value hmem hi
  cases hI.plain.kind with
  | scalar hc =>
    have hne : I.code ≠ .dynIndex ∧ I.code ≠ .density ∧ I.rule = I.code ∧
        I.rule.has .noInputs = false ∧ ∀ j, I.inputLen j = 1 := by
      cases hcode : I.code <;> rw [hcode] at hc <;> first
        | exact absurd hc (by decide)
        | simp [Instr.rule, Instr.inputLen, hcode, Code.has, Code.flags]
    obtain ⟨hdyn, hden, hrule, hno, hin⟩ := hne
    have hops := readOperands_of_plain (R := M.toRegistry) hdyn hden hno
    rw [exec_of_isScalar M _ (h.code ▸ hc), exec_of_isScalar M _ hc, h.code, h.len, h.dst]
    have ha := hval (k := 0) (i := 0) (n := I.inputLen 0) (by rw [hops]; simp) (by rw [hin]; omega)
    simp only [Instr.operand, Nat.add_zero] at ha
    rw [ha]
    congr 1
    refine M.scalar_congr _ _ (fun hb => ?_) fun hb => ?_
    · rw [← hrule] at hb
      exact hval (k := 1) (i := 0) (n := I.inputLen 1) (by rw [hops, hb]; simp) (by rw [hin]; omega)
    · rw [← hrule] at hb
      exact hval (k := 2) (i := 0) (n := I.inputLen 2) (by rw [hops, hb]; simp) (by rw [hin]; omega)
  | const hc | fill hc | constr hc =>
    have ha := h.keep 0 (by omega) (by simp [Instr.readOperands, Instr.rule, hc, Code.has, Code.flags])
    simp only [Instr.operand] at ha
    simp only [exec, hc, hJ, hpool, h.dst, h.len, ha]
  | mov hc =>
    have ha := hval (k := 0) (i := 0) (n := 1)
      (by simp [Instr.readOperands, Instr.rule, Instr.inputLen, hc, Code.has, Code.flags]) (by omega)
    simp only [Instr.operand, Nat.add_zero] at ha
    simp only [exec, hc, hJ, h.dst, ha]
  | movr hc | logRange hc | expRange hc =>
    have hsame := h.same (0, I.len)
      (by simp [Instr.readOperands, Instr.rule, Instr.inputLen, hc, Code.has, Code.flags])
    have hstep : I.step 0 = 1 := by simp [Instr.step, hc]
    have hout : I.outputLen = I.len := by simp [Instr.outputLen, hc, Code.has, Code.flags]
    simp only [exec, hc, hJ, h.dst, h.len]
    refine congrArg s.withReg (writeLoop_congr fun i hi y hy => ?_)
    have := hsame.loop (i := i) (by simp [Instr.loops, hc]) (by omega) (by rw [hstep]; omega) hy
    simp only [hstep, Nat.one_mul, Instr.operand] at this
    rw [this]
  | dynIndex hc =>
    have ha := h.keep 0 (by omega) (by simp [Instr.readOperands, hc])
    have hcc := h.keep 2 (by omega) (by simp [Instr.readOperands, hc])
    have hb := hval (k := 1) (i := 0) (n := 1) (by simp [Instr.readOperands, hc]) (by omega)
    simp only [Instr.operand, Nat.add_zero] at ha hb hcc
    simp only [exec, hc, hJ, h.dst, h.len, ha, hb, hcc]
  | extremaRange hc => exact absurd hc hI.code_ne.1
  | reject hc => exact absurd hc hI.code_ne.2
  | jz hc | jmp hc => simp only [exec, hc, hJ]
  | lseRange hc | softmax hc =>
    have hread : (Span.mk J.a I.len).read s.reg = (Span.mk I.a I.len).read s.reg := by
      simp only [Span.read, Span.regs, List.map_map]
      refine List.map_congr_left fun i hi => ?_
      exact hval (k := 0) (n := I.len)
        (by simp [Instr.readOperands, Instr.rule, Instr.inputLen, hc, Code.has, Code.flags])
        (List.mem_range.1 hi)
    simp only [exec, hc, hJ, h.dst, h.len, hread]
  | dot hc =>
    have ha : ∀ {i}, i < I.len → s.reg (J.a + i) = s.reg (I.a + i) := fun hi =>
      hval (k := 0) (n := I.len)
        (by simp [Instr.readOperands, Instr.rule, Instr.inputLen, hc, Code.has, Code.flags]) hi
    have hb : ∀ {i}, i < I.len → s.reg (J.b + i) = s.reg (I.b + i) := fun hi =>
      hval (k := 1) (n := I.len)
        (by simp [Instr.readOperands, Instr.rule, Instr.inputLen, hc, Code.has, Code.flags]) hi
    have hdot : ((List.range I.len).map fun k => s.reg (J.a + k) * s.reg (J.b + k)) =
        (List.range I.len).map fun k => s.reg (I.a + k) * s.reg (I.b + k) :=
      List.map_congr_left fun i hi => by
        rw [ha (List.mem_range.1 hi), hb (List.mem_range.1 hi)]
    simp only [exec, hc, hJ, h.dst, h.len, hdot]
  | density hc =>
    have hargs : (J.densityArgs M.toRegistry).map s.reg = (I.densityArgs M.toRegistry).map s.reg := by
      unfold Instr.densityArgs
      rw [h.len]
      split
      · rename_i hrun
        simp only [Span.regs, List.map_map]
        refine List.map_congr_left fun i hi => ?_
        exact hval (k := 0) (n := M.densityArity I.len)
          (by simp [Instr.readOperands, hc, hrun]) (List.mem_range.1 hi)
      · rename_i hrun
        simp only [List.map_map]
        refine List.map_congr_left fun k hk => ?_
        rw [List.mem_range] at hk
        refine hval (k := k) (i := 0) (n := 1) ?_ (by omega)
        have hk3 : k < 3 := by omega
        interval_cases k <;> simp [Instr.readOperands, hc, hrun, hk]
    simp only [exec, hc, hJ, h.dst, h.len, hargs]
  | call hc => exact absurd hc hcall
  | range hc =>
    simp only [exec, hc, hJ, h.dst, h.len, h.sub, h.law]
    split
    · rename_i hsub
      have hrule : I.rule = I.sub := if_pos hc
      have hops := readOperands_of_plain (R := M.toRegistry) (I := I) (by simp [hc]) (by simp [hc])
        (by rw [hrule]; exact Code.elementwise.noInputs hsub)
      have hout : I.outputLen = I.len := by simp [Instr.outputLen, hc]
      refine congrArg s.withReg (writeLoop_congr fun i hi y hy => ?_)
      have hstep : ∀ k, I.step k = I.stride k := fun k => by simp [Instr.step, hc]
      have hloop : ∀ k, (k, I.inputLen k) ∈ I.readOperands M.toRegistry →
          y (J.operand k + J.stride k * i) = y (I.operand k + I.stride k * i) := fun k hk => by
        have := (h.same _ hk).loop (i := i) (by simp [Instr.loops, hc]) (by omega)
          (by rw [hstep]; exact IslandProg.stride_lt hc k hi) hy
        rw [h.stride, ← hstep]
        exact this.symm
      have h0 := hloop 0 (by rw [hops]; simp)
      simp only [Instr.operand] at h0
      rw [h0]
      refine M.scalar_congr _ _ (fun hb => ?_) fun hb => ?_
      · rw [← hrule] at hb
        exact hloop 1 (by rw [hops, hb]; simp)
      · rw [← hrule] at hb
        exact hloop 2 (by rw [hops, hb]; simp)
    · rfl

end Program

end Stanli
