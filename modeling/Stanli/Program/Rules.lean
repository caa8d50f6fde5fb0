import Mathlib.Tactic.LinearCombination
import Stanli.Program.Values

/-!
# The rules of the backward

One adjoint instruction does to the adjoint cells what reverse mode does to the adjoints of the
registers: it clears the cells of what its instruction wrote and adds to the cells of what the
instruction read (`AdjOf.backs`, `CallOf.backs`).
-/

namespace Stanli

open Program

variable {V E S : Type*} [Field V]

/-! ## Scalar rules -/

/-- A scalar rule adds the consumed adjoint times the partials, when it finds the values it wants. -/
lemma StanMath.pull_perm (M : StanMath V E S) {code : Code} (h : code.elementwise = true) (law : ℕ)
    (t : V) {a b c d x y z o : V} (ha : code.has .saveA = true → a = x)
    (hb : code.has .saveB = true → b = y) (hc : code.has .saveC = true → c = z)
    (ho : code.has .saveOut = true → d = o) (hdiv : code = .div → o = x / y) :
    (M.pull code law t a b c d).Perm
      ((M.partials code law x y z o).map fun e => (e.1, t * e.2)) := by
  cases code with
  | add | sub | neg =>
    refine List.Perm.of_eq ?_
    simp [StanMath.pull, StanMath.partials]
  | mul | fma | pow | fmax | fmin | lse2 | logDiffExp | lmultiply =>
    refine List.Perm.of_eq ?_
    simp_all [StanMath.pull, StanMath.partials, Code.has, Code.flags, mul_comm]
  | div =>
    obtain rfl := ha rfl
    obtain rfl := hb rfl
    obtain rfl := ho rfl
    obtain rfl := hdiv rfl
    refine List.Perm.of_eq ?_
    have h1 : t / b = t * (1 / b) := by ring
    have h2 : -(a / b) * (t / b) = t * (-a / (b * b)) := by ring
    have h3 : -(t * a) / (b * b) = t * (-a / (b * b)) := by ring
    simp only [StanMath.pull, StanMath.partials, List.map_cons, List.map_nil]
    split
    · rw [h2, h1]
    · rw [h3, h1]
  | logMix =>
    obtain rfl := ha rfl
    obtain rfl := hb rfl
    obtain rfl := hc rfl
    simp only [StanMath.pull, StanMath.partials, List.map_cons, List.map_nil]
    exact (List.reverse_perm [_, _, _]).symm.trans (List.Perm.refl _)
  | log | square | log1m =>
    obtain rfl := ha rfl
    refine List.Perm.of_eq ?_
    simp only [StanMath.pull, StanMath.partials, StanMath.unaryPull, Code.fromOut, List.map_cons,
      List.map_nil]
    simp
    ring
  | exp | invLogit =>
    obtain rfl := ho rfl
    refine List.Perm.of_eq ?_
    simp only [StanMath.pull, StanMath.partials, StanMath.unaryPull, Code.fromOut, List.map_cons,
      List.map_nil]
    simp [mul_assoc]
  | sqrt =>
    obtain rfl := ho rfl
    rfl
  | inv | fabs | log1pExp | tanh | erfc | log1p | log1mExp | invSquare =>
    obtain rfl := ha rfl
    rfl
  | _ => exact absurd h (by decide)

/-- A scalar rule adds to the operands its instruction reads. -/
lemma StanMath.mem_pull (M : StanMath V E S) {code : Code} (h : code.elementwise = true) {law : ℕ}
    {t va vb vc vd : V} {e : ℕ × V} (he : e ∈ M.pull code law t va vb vc vd) :
    e.1 = 0 ∨ (e.1 = 1 ∧ code.has .readB = true) ∨ (e.1 = 2 ∧ code.has .readC = true) := by
  cases code with
  | add | sub | mul | div | pow | fmax | fmin | lse2 | logDiffExp | lmultiply | logMix | fma =>
    simp only [StanMath.pull] at he
    try split at he
    all_goals
      simp only [List.mem_cons, List.not_mem_nil, or_false] at he
      rcases he with rfl | rfl | rfl <;> simp [Code.has, Code.flags]
  | neg | exp | log | sqrt | square | inv | fabs | invLogit | log1m | log1pExp | tanh | erfc | log1p
    | log1mExp | invSquare =>
    simp only [StanMath.pull, List.mem_cons, List.not_mem_nil, or_false] at he
    exact Or.inl (by rw [he])
  | _ => exact absurd h (by decide)

namespace IslandProg

variable {R : Registry} {p : IslandProg V} {M : StanMath V E S} {k : ℕ} {I : Instr} {J : AdjInstr}
  {x y val : ℕ → V}

/-- What the backward contributes of an instruction: a density only to its active arguments, an
extremum nothing. -/
def keptPulls (R : Registry) (p : IslandProg V) (M : StanMath V E S) (k : ℕ) (I : Instr)
    (x y seed : ℕ → V) : List (ℕ × V) :=
  if I.code = .extremaRange then []
  else if I.code = .density then
    (p.pulled M I x y seed).filter fun e => decide (e.1 ∈ p.activeAt R k)
  else p.pulled M I x y seed

/-- Clear the cells of some registers. -/
def clearCells (cell : ℕ → ℕ) (ws : List ℕ) (adj : ℕ → V) : ℕ → V := fun c =>
  if ∃ w ∈ ws, cell w = c then 0 else adj c

/-- The contributions of registers, added to their cells. -/
def cellsOf (cell : ℕ → ℕ) (l : List (ℕ × V)) : List (ℕ × V) := l.map fun e => (cell e.1, e.2)

/-- An adjoint instruction does to the cells what reverse mode does to the registers. -/
def Backs (R : Registry) (p : IslandProg V) (M : StanMath V E S) (q : Program V) (k : ℕ) (I : Instr)
    (J : AdjInstr) (x y val : ℕ → V) : Prop :=
  ∀ (adj : ℕ → V) (c : ℕ), adjStep M q val J adj c =
    clearCells (p.adjCell R) (p.defines I) adj c +
      gather (cellsOf (p.adjCell R) (p.keptPulls R M k I x y fun w => adj (p.adjCell R w))) c

/-- Clearing the cells of what an instruction writes clears a run of cells. -/
lemma AdjOf.clear (h : AdjOf R p k I J x y val) (hcall : I.code ≠ .call) (adj : ℕ → V) :
    clearRun adj J.dst I.outputLen = clearCells (p.adjCell R) (p.defines I) adj := by
  funext c
  unfold clearRun clearCells
  refine if_congr ?_ rfl rfl
  simp only [defines_of_ne_call hcall, Span.mem_regs]
  constructor
  · rintro ⟨h1, h2⟩
    refine ⟨I.dst + (c - J.dst), ⟨by omega, by omega⟩, ?_⟩
    rw [h.dst _ (by omega)]
    omega
  · rintro ⟨w, ⟨h1, h2⟩, rfl⟩
    have := h.dst (w - I.dst) (by omega)
    rw [Nat.add_sub_cancel' h1] at this
    omega

/-- A rule that consumes the adjoint of one register. -/
lemma AdjOf.backs_one (h : AdjOf R p k I J x y val) (hcall : I.code ≠ .call)
    (hlen : I.outputLen = 1) {q : Program V} {l : (ℕ → V) → List (ℕ × V)}
    (hstep : ∀ adj, adjStep M q val J adj = addAll (Function.update adj J.dst 0) (l adj))
    (hl : ∀ adj c, gather (l adj) c = gather
      (cellsOf (p.adjCell R) (p.keptPulls R M k I x y fun w => adj (p.adjCell R w))) c) :
    Backs R p M q k I J x y val := by
  intro adj c
  have hclear : Function.update adj J.dst 0 = clearRun adj J.dst I.outputLen := by
    funext c
    rw [Function.update_apply, clearRun, hlen]
    exact if_congr (by omega) rfl rfl
  rw [hstep, addAll_apply, hclear, h.clear hcall, hl]

/-- A rule that consumes the adjoints of a run of registers, one after the other. -/
lemma AdjOf.backs_loop (h : AdjOf R p k I J x y val) (hcall : I.code ≠ .call) {q : Program V}
    {f : (ℕ → V) → ℕ → V → List (ℕ × V)}
    (hstep : ∀ adj, adjStep M q val J adj = takeLoop (f adj) J.dst I.outputLen adj)
    (hf : ∀ adj k k' u, k < k' → k' < I.outputLen → ∀ e ∈ f adj k u, e.1 ≠ J.dst + k')
    (hl : ∀ adj c, gather ((List.range I.outputLen).flatMap fun k => f adj k (adj (J.dst + k))) c =
      gather (cellsOf (p.adjCell R) (p.keptPulls R M k I x y fun w => adj (p.adjCell R w))) c) :
    Backs R p M q k I J x y val := by
  intro adj c
  rw [hstep, takeLoop_apply (hf adj), h.clear hcall, hl]

/-- A rule that clears a run of cells behind its contributions. -/
lemma AdjOf.backs_clear (h : AdjOf R p k I J x y val) (hcall : I.code ≠ .call) {q : Program V}
    {l : (ℕ → V) → List (ℕ × V)}
    (hstep : ∀ adj, adjStep M q val J adj = clearRun (addAll adj (l adj)) J.dst I.outputLen)
    (hf : ∀ adj, ∀ e ∈ l adj, ∀ j < I.outputLen, e.1 ≠ J.dst + j)
    (hl : ∀ adj c, gather (l adj) c = gather
      (cellsOf (p.adjCell R) (p.keptPulls R M k I x y fun w => adj (p.adjCell R w))) c) :
    Backs R p M q k I J x y val := by
  intro adj c
  rw [hstep, ← hl, ← h.clear hcall]
  unfold clearRun
  by_cases hc : J.dst ≤ c ∧ c < J.dst + I.outputLen
  · rw [if_pos hc, if_pos hc, zero_add, gather_eq_zero]
    intro e he heq
    exact hf adj e he (c - J.dst) (by omega) (by omega)
  · rw [if_neg hc, if_neg hc, addAll_apply]

/-! ## Scalar instructions -/

/-- The contributions of an instruction that is no call, no density and no extremum. -/
lemma cellsOf_keptPulls (hcall : I.code ≠ .call) (hden : I.code ≠ .density)
    (hext : I.code ≠ .extremaRange) (cell : ℕ → ℕ) (seed : ℕ → V) :
    cellsOf cell (p.keptPulls R M k I x y seed) =
      (I.jacobian M x y).map fun e => (cell e.2.1, seed (I.dst + e.1) * e.2.2) := by
  rw [keptPulls, if_neg hext, if_neg hden, pulled, if_neg hcall, cellsOf, List.map_map]
  rfl

lemma jacobian_of_elementwise (h : I.code.elementwise = true) : I.jacobian M x y =
    (M.partials I.code I.len (x I.a) (x I.b) (x I.c.toNat) (y I.dst)).map fun e =>
      (0, I.operand e.1, e.2) := by
  cases hc : I.code <;> rw [hc] at h <;> first
    | exact absurd h (by decide)
    | simp only [Instr.jacobian, hc, h, if_true]

lemma adjStep_of_elementwise (h : J.code.elementwise = true) (q : Program V) (adj : ℕ → V) :
    adjStep M q val J adj = addAll (Function.update adj J.dst 0)
      ((M.pull J.code J.len (adj J.dst) (val J.va) (val J.vb) (val J.vc) (val J.vd)).map fun e =>
        (J.operand e.1, e.2)) := by
  cases hc : J.code <;> rw [hc] at h <;> first
    | exact absurd h (by decide)
    | simp only [adjStep, hc]

omit [Field V] in
/-- The scalar instructions have no ranges. -/
lemma elementwise_instr (h : I.code.elementwise = true) : I.code ≠ .call ∧ I.code ≠ .density ∧
    I.code ≠ .extremaRange ∧ I.code ≠ .dynIndex ∧ I.code ≠ .range ∧ I.rule = I.code ∧
    I.outputLen = 1 ∧ ∀ j, I.inputLen j = 1 := by
  cases hc : I.code <;> rw [hc] at h <;> first
    | exact absurd h (by decide)
    | simp [Instr.rule, Instr.outputLen, Instr.inputLen, hc, Code.has, Code.flags]

/-- The rule of a scalar instruction. -/
lemma AdjOf.backs_elementwise (h : AdjOf R p k I J x y val) (hc : I.code.elementwise = true)
    (hdiv : I.code = .div → y I.dst = x I.a / x I.b) (q : Program V) : Backs R p M q k I J x y val := by
  obtain ⟨hcall, hden, hext, hdyn, hrange, hrule, hlen, hin⟩ := elementwise_instr hc
  have hcode : J.code = I.code := by rw [h.code, if_neg hext]
  have hsaved : ∀ j, savedLen R I j = 1 := fun j => by
    rw [savedLen, hin, Instr.isRangedDensity]
    simp [hden]
  have hvalue : ∀ j < 3, wantsOperand R I j = true → val (J.value j) = x (I.operand j) := by
    intro j hj hw
    simpa using h.value j hj hw 0 (by rw [hsaved]; omega)
  have hwant : wantsOperand R I 0 = I.code.has .saveA ∧ wantsOperand R I 1 = I.code.has .saveB ∧
      wantsOperand R I 2 = I.code.has .saveC :=
    ⟨(if_neg hden).trans (congrArg₂ Code.has hrule rfl),
      (if_neg hden).trans (congrArg₂ Code.has hrule rfl),
      (if_neg hden).trans (congrArg₂ Code.has hrule rfl)⟩
  refine h.backs_one hcall hlen (adjStep_of_elementwise (hcode ▸ hc) q) fun adj c => ?_
  have hperm := M.pull_perm hc I.len (adj J.dst) (fun hw => hvalue 0 (by omega) (hwant.1.trans hw))
    (fun hw => hvalue 1 (by omega) (hwant.2.1.trans hw))
    (fun hw => hvalue 2 (by omega) (hwant.2.2.trans hw))
    (fun hw => by simpa using h.out (hrule ▸ hw) 0 (by omega)) hdiv
  rw [hcode, h.len, cellsOf_keptPulls hcall hden hext, jacobian_of_elementwise hc, List.map_map]
  refine (gather_perm (hperm.map fun e => (J.operand e.1, e.2)) c).trans ?_
  rw [List.map_map]
  congr 1
  refine List.map_congr_left fun e he => ?_
  have hmem := M.mem_pull hc (hperm.mem_iff.2 (List.mem_map_of_mem he))
  have hread : e.1 < 3 ∧ I.reads e.1 = true := by
    rcases hmem with h0 | ⟨h1, hb⟩ | ⟨h2, hb⟩
    · simp only at h0
      simp [h0, Instr.reads, hrule, Code.elementwise.noInputs hc]
    · simp only at h1
      simp [h1, Instr.reads, hrule, hb]
    · simp only at h2
      simp [h2, Instr.reads, hrule, hb]
  have hcell := h.operand hden hdyn hext e.1 hread.1 hread.2 0 (by rw [hin]; omega)
  have hdst := h.dst 0 (by omega)
  simp only [Nat.add_zero] at hcell hdst
  simp only [Function.comp, hcell, Nat.add_zero, hdst]

/-! ## Instructions that only clear -/

/-- An instruction without contributions whose rule clears what it wrote. -/
lemma AdjOf.backs_clears (h : AdjOf R p k I J x y val) (hcall : I.code ≠ .call) {q : Program V}
    (hstep : ∀ adj, adjStep M q val J adj = clearRun adj J.dst I.outputLen)
    (hno : ∀ seed, p.keptPulls R M k I x y seed = []) : Backs R p M q k I J x y val := by
  refine h.backs_clear hcall (l := fun _ => []) hstep (fun _ e he => by simp at he) fun adj c => ?_
  rw [hno]
  rfl

omit [Field V] in
lemma clearRun_one {V : Type*} [AddCommMonoid V] (adj : ℕ → V) (d : ℕ) :
    Function.update adj d 0 = clearRun adj d 1 := by
  funext c
  rw [Function.update_apply, clearRun]
  exact if_congr (by omega) rfl rfl

/-- The rule of a comparison or an integer operation, a constant, or an extremum. -/
lemma AdjOf.backs_onlyClears (h : AdjOf R p k I J x y val) (q : Program V)
    (hc : I.code.isDiscrete = true ∨ I.code = .const ∨ I.code = .fill ∨ I.code = .constr ∨
      I.code = .extremaRange) : Backs R p M q k I J x y val := by
  have hjac : I.code ≠ .extremaRange → ∀ seed, I.code ≠ .call → I.code ≠ .density →
      I.jacobian M x y = [] → p.keptPulls R M k I x y seed = [] := by
    intro hext seed hcall hden hnil
    rw [keptPulls, if_neg hext, if_neg hden, pulled, if_neg hcall, hnil, List.map_nil]
  rcases hc with hc | hc | hc | hc | hc
  · have hscalar : I.code.isScalar = true := by simp [Code.isScalar, hc]
    have hne : I.code ≠ .call ∧ I.code ≠ .density ∧ I.code ≠ .extremaRange ∧
        I.jacobian M x y = [] := by
      cases hcode : I.code <;> rw [hcode] at hc <;> first
        | exact absurd hc (by decide)
        | simp [Instr.jacobian, hcode, Code.elementwise]
    have hcode : J.code = I.code := by rw [h.code, if_neg hne.2.2.1]
    refine h.backs_clears hne.1 (fun adj => ?_) fun seed => hjac hne.2.2.1 seed hne.1 hne.2.1 hne.2.2.2
    rw [Code.isScalar.outputLen hscalar, ← clearRun_one]
    cases hcode' : I.code <;> rw [hcode'] at hc <;> first
      | exact absurd hc (by decide)
      | simp only [adjStep, hcode, hcode']
  · have hcode : J.code = .const := by rw [h.code, if_neg (by simp [hc]), hc]
    refine h.backs_clears (by simp [hc]) (fun adj => ?_) fun seed => hjac (by simp [hc]) seed
      (by simp [hc]) (by simp [hc]) (by simp [Instr.jacobian, hc, Code.elementwise])
    rw [show I.outputLen = 1 by simp [Instr.outputLen, hc, Code.has, Code.flags], ← clearRun_one]
    simp only [adjStep, hcode]
  · have hcode : J.code = .fill := by rw [h.code, if_neg (by simp [hc]), hc]
    refine h.backs_clears (by simp [hc]) (fun adj => ?_) fun seed => hjac (by simp [hc]) seed
      (by simp [hc]) (by simp [hc]) (by simp [Instr.jacobian, hc, Code.elementwise])
    rw [show I.outputLen = I.len by simp [Instr.outputLen, hc, Code.has, Code.flags]]
    simp only [adjStep, hcode, h.len]
  · have hcode : J.code = .constr := by rw [h.code, if_neg (by simp [hc]), hc]
    refine h.backs_clears (by simp [hc]) (fun adj => ?_) fun seed => hjac (by simp [hc]) seed
      (by simp [hc]) (by simp [hc]) (by simp [Instr.jacobian, hc, Code.elementwise])
    rw [show I.outputLen = I.len by simp [Instr.outputLen, hc, Code.has, Code.flags]]
    simp only [adjStep, hcode, h.len]
  · have hcode : J.code = .const := by rw [h.code, if_pos hc]
    refine h.backs_clears (by simp [hc]) (fun adj => ?_) fun seed => if_pos hc
    rw [show I.outputLen = 1 by simp [Instr.outputLen, hc, Code.has, Code.flags], ← clearRun_one]
    simp only [adjStep, hcode]

/-! ## Ranges -/

/-- The registers an instruction reads have the cells of what it writes only where they are what it
writes. -/
def CellsApart (R : Registry) (p : IslandProg V) (I : Instr) : Prop :=
  ∀ r ∈ p.readRegs R I, ∀ w ∈ p.defines I, p.adjCell R r = p.adjCell R w → r = w

/-- The instructions that map a run of registers to a run of the same length. -/
def isRunMap (I : Instr) : Prop :=
  I.code = .movr ∨ I.code = .logRange ∨ I.code = .expRange ∨ I.code = .softmax

omit [Field V] in
lemma isRunMap.instr (h : isRunMap I) : I.code ≠ .call ∧ I.code ≠ .density ∧
    I.code ≠ .extremaRange ∧ I.code ≠ .dynIndex ∧ I.code ≠ .range ∧ I.reads 0 = true ∧
    I.outputLen = I.len ∧ I.inputLen 0 = I.len := by
  rcases h with h | h | h | h <;>
    simp [Instr.reads, Instr.rule, Instr.outputLen, Instr.inputLen, h, Code.has, Code.flags]

omit [Field V] in
/-- In the cells the source of a run map is what it writes, or nothing behind an element of the
source is written over. -/
lemma AdjOf.runMap_apart (h : AdjOf R p k I J x y val) (hm : isRunMap I) (hch : p.Checked R k I)
    (hcells : CellsApart R p I) :
    J.a = J.dst ∨ ∀ i < I.len, ∀ j < I.len, J.a + i ≠ J.dst + j := by
  obtain ⟨hcall, hden, hext, hdyn, hrange, hread, hout, hin⟩ := hm.instr
  have hran : I.isRangedDensity R = false := by simp [Instr.isRangedDensity, hden]
  have hsrc : ∀ i < I.len, p.adjCell R (I.a + i) = J.a + i := fun i hi =>
    h.operand hden hdyn hext 0 (by omega) hread i (by omega)
  have hdst : ∀ i < I.len, p.adjCell R (I.dst + i) = J.dst + i := fun i hi => h.dst i (by omega)
  have hregs : I.a = I.dst ∨ ∀ i < I.len, ∀ j < I.len, I.a + i ≠ I.dst + j := by
    rcases lt_or_ge 1 I.len with hlt | hle
    · have := hch.disjoint hdyn hcall hran 0 (by omega) hread (by omega)
      rw [hin, hout] at this
      simp only [Instr.operand] at this
      rcases this with h | h | h | ⟨-, h⟩
      · omega
      · exact Or.inr fun i hi j hj => by omega
      · exact Or.inr fun i hi j hj => by omega
      · exact Or.inl h.symm
    · rcases eq_or_ne I.a I.dst with heq | hne
      · exact Or.inl heq
      · exact Or.inr fun i hi j hj => by omega
  rcases hregs with heq | hne
  · rcases Nat.eq_zero_or_pos I.len with hz | hpos
    · exact Or.inr fun i hi => absurd hi (by omega)
    · left
      have h1 := hsrc 0 hpos
      have h2 := hdst 0 hpos
      rw [heq] at h1
      omega
  · refine Or.inr fun i hi j hj heq => hne i hi j hj ?_
    refine hcells _ (mem_readRegs hcall hden hdyn (j := 0) (by omega) hread (by omega)) _ ?_ ?_
    · rw [defines_of_ne_call hcall, Span.mem_regs]
      simp only
      omega
    · change p.adjCell R (I.a + i) = _
      rw [hsrc i hi, hdst j hj, heq]

/-- The rule of a copy, a logarithm or an exponential of a run: each element alone. -/
lemma AdjOf.backs_runMap (h : AdjOf R p k I J x y val) (hm : isRunMap I) (hch : p.Checked R k I)
    (hcells : CellsApart R p I) {q : Program V} {g : ℕ → V → V} {d : ℕ → V}
    (hstep : ∀ adj, adjStep M q val J adj =
      if J.a = J.dst then takeLoop (fun k u => [(J.a + k, g k u)]) J.dst I.len adj
      else clearRun (addAll adj ((List.range I.len).map fun k => (J.a + k, g k (adj (J.dst + k)))))
        J.dst I.len)
    (hjac : I.jacobian M x y = (List.range I.len).map fun k => (k, I.a + k, d k))
    (hg : ∀ k < I.len, ∀ u, g k u = u * d k) : Backs R p M q k I J x y val := by
  obtain ⟨hcall, hden, hext, hdyn, -, hread, hout, hin⟩ := hm.instr
  have hlist : ∀ adj : ℕ → V, ((List.range I.len).map fun k => (J.a + k, g k (adj (J.dst + k)))) =
      cellsOf (p.adjCell R) (p.keptPulls R M k I x y fun w => adj (p.adjCell R w)) := by
    intro adj
    rw [cellsOf_keptPulls hcall hden hext, hjac, List.map_map]
    refine List.map_congr_left fun i hi => ?_
    rw [List.mem_range] at hi
    have hsrc := h.operand hden hdyn hext 0 (by omega) hread i (by omega)
    have hdst := h.dst i (by omega)
    simp only [Instr.operand, AdjInstr.operand] at hsrc
    simp only [Function.comp, hsrc, hdst, hg i hi]
  rcases eq_or_ne J.a J.dst with heq | hne
  · refine h.backs_loop hcall (f := fun _ k u => [(J.a + k, g k u)]) (fun adj => ?_)
      (fun _ k k' u hk _ e he => ?_) fun adj c => ?_
    · rw [hstep, if_pos heq, hout]
    · obtain rfl := List.mem_singleton.1 he
      simp only
      omega
    · rw [hout, ← hlist, ← List.map_eq_flatMap]
  · have happart := (h.runMap_apart hm hch hcells).resolve_left hne
    refine h.backs_clear hcall (l := fun adj => (List.range I.len).map fun k =>
      (J.a + k, g k (adj (J.dst + k)))) (fun adj => ?_) (fun adj e he j hj => ?_) fun adj c => ?_
    · rw [hstep, if_neg hne, hout]
    · obtain ⟨i, hi, rfl⟩ := List.mem_map.1 he
      exact happart i (List.mem_range.1 hi) j (by omega)
    · rw [hlist]

omit [Field V] in
/-- Where the backward finds a value that it wants of an operand. -/
lemma AdjOf.value_at (h : AdjOf R p k I J x y val) (hden : I.code ≠ .density) {j i : ℕ} (hj : j < 3)
    (hw : wantsOperand R I j = true) (hi : i < I.inputLen j) :
    val (J.value j + i) = x (I.operand j + i) := by
  refine h.value j hj hw i ?_
  simpa [savedLen, Instr.isRangedDensity, hden] using hi

lemma AdjOf.backs_movr (h : AdjOf R p k I J x y val) (hc : I.code = .movr) (hch : p.Checked R k I)
    (hcells : CellsApart R p I) (q : Program V) : Backs R p M q k I J x y val := by
  have hcode : J.code = .movr := by rw [h.code, if_neg (by simp [hc]), hc]
  refine h.backs_runMap (Or.inl hc) hch hcells (g := fun _ u => u) (d := fun _ => 1) (fun adj => ?_)
    (by simp only [Instr.jacobian, hc]) fun i _ u => (mul_one u).symm
  simp only [adjStep, hcode, h.len]

lemma AdjOf.backs_logRange (h : AdjOf R p k I J x y val) (hc : I.code = .logRange)
    (hch : p.Checked R k I) (hcells : CellsApart R p I) (q : Program V) :
    Backs R p M q k I J x y val := by
  have hcode : J.code = .logRange := by rw [h.code, if_neg (by simp [hc]), hc]
  refine h.backs_runMap (Or.inr (Or.inl hc)) hch hcells (g := fun k u => u / val (J.va + k))
    (d := fun k => 1 / x (I.a + k)) (fun adj => ?_) (by simp only [Instr.jacobian, hc])
    fun i hi u => ?_
  · simp only [adjStep, hcode, h.len]
  · have := h.value_at (by simp [hc]) (j := 0) (i := i) (by omega)
      (by simp [wantsOperand, Instr.rule, hc, Code.has, Code.flags])
      (by simpa [Instr.inputLen, hc, Code.has, Code.flags] using hi)
    simp only [AdjInstr.value, Instr.operand] at this
    rw [this, mul_one_div]

lemma AdjOf.backs_expRange (h : AdjOf R p k I J x y val) (hc : I.code = .expRange)
    (hch : p.Checked R k I) (hcells : CellsApart R p I) (q : Program V) :
    Backs R p M q k I J x y val := by
  have hcode : J.code = .expRange := by rw [h.code, if_neg (by simp [hc]), hc]
  refine h.backs_runMap (Or.inr (Or.inr (Or.inl hc))) hch hcells
    (g := fun k u => u * val (J.vd + k)) (d := fun k => y (I.dst + k)) (fun adj => ?_)
    (by simp only [Instr.jacobian, hc]) fun i hi u => ?_
  · simp only [adjStep, hcode, h.len]
  · rw [h.out (by simp [Instr.rule, hc, Code.has, Code.flags]) i
      (by simpa [Instr.outputLen, hc, Code.has, Code.flags] using hi)]

/-- The sum of a softmax row against the adjoints. -/
lemma sum_softmax (n j : ℕ) (hj : j < n) (s u : ℕ → V) :
    ((List.range n).map fun k => u k * (s k * ((if j = k then 1 else 0) - s j))).sum =
      s j * (u j - ((List.range n).map fun k => s k * u k).sum) := by
  have hsplit : ∀ m, ((List.range m).map fun k => u k * (s k * ((if j = k then 1 else 0) - s j))).sum =
      (if j < m then s j * u j else 0) - s j * ((List.range m).map fun k => s k * u k).sum := by
    intro m
    induction m with
    | zero => simp
    | succ m ih =>
      rw [List.range_succ, List.map_append, List.sum_append, ih, List.map_append, List.sum_append]
      simp only [List.map_cons, List.map_nil, List.sum_cons, List.sum_nil, add_zero]
      rcases lt_trichotomy j m with h | rfl | h
      · rw [if_pos h, if_neg (by omega), if_pos (by omega)]
        ring
      · rw [if_neg (lt_irrefl j), if_pos rfl, if_pos (Nat.lt_succ_self j)]
        ring
      · rw [if_neg (by omega), if_neg (by omega), if_neg (by omega)]
        ring
  rw [hsplit, if_pos hj]
  ring

/-- The rule of a softmax. -/
lemma AdjOf.backs_softmax (h : AdjOf R p k I J x y val) (hc : I.code = .softmax)
    (hch : p.Checked R k I) (hcells : CellsApart R p I) (q : Program V) :
    Backs R p M q k I J x y val := by
  have hm : isRunMap I := Or.inr (Or.inr (Or.inr hc))
  obtain ⟨hcall, hden, hext, hdyn, -, hread, hout, hin⟩ := hm.instr
  have hcode : J.code = .softmax := by rw [h.code, if_neg hext, hc]
  have hsoft : ∀ i < I.len, val (J.vd + i) = y (I.dst + i) := fun i hi =>
    h.out (by simp [Instr.rule, hc, Code.has, Code.flags]) i (by omega)
  have hdst : ∀ i < I.len, p.adjCell R (I.dst + i) = J.dst + i := fun i hi => h.dst i (by omega)
  have hsrc : ∀ i < I.len, p.adjCell R (I.a + i) = J.a + i := fun i hi =>
    h.operand hden hdyn hext 0 (by omega) hread i (by omega)
  refine h.backs_loop hcall (f := fun adj k u => [(J.a + k, val (J.vd + k) * (u -
      ((List.range I.len).map fun k => val (J.vd + k) * adj (J.dst + k)).sum))]) (fun adj => ?_)
    (fun _ i j u hij hj e he => ?_) fun adj c => ?_
  · rw [hout]
    simp only [adjStep, hcode, h.len]
  · obtain rfl := List.mem_singleton.1 he
    simp only
    rcases h.runMap_apart hm hch hcells with heq | hne
    · omega
    · exact hne i (by omega) j (by omega)
  · have hd : ((List.range I.len).map fun k => val (J.vd + k) * adj (J.dst + k)).sum =
        ((List.range I.len).map fun k => y (I.dst + k) * adj (J.dst + k)).sum := by
      congr 1
      refine List.map_congr_left fun i hi => ?_
      rw [hsoft i (List.mem_range.1 hi)]
    rw [cellsOf_keptPulls hcall hden hext, hout, hd]
    simp only [Instr.jacobian, hc]
    rw [List.map_flatMap]
    -- Every row of the Jacobian goes to one cell.
    have hrow : ∀ (is : List ℕ), (∀ i ∈ is, i < I.len) →
        gather (is.flatMap fun j => [(J.a + j, val (J.vd + j) * (adj (J.dst + j) -
          ((List.range I.len).map fun k => y (I.dst + k) * adj (J.dst + k)).sum))]) c =
        gather (is.flatMap fun j => ((List.range I.len).map fun k =>
          (k, I.a + j, y (I.dst + k) * ((if j = k then 1 else 0) - y (I.dst + j)))).map fun e =>
            (p.adjCell R e.2.1, adj (p.adjCell R (I.dst + e.1)) * e.2.2)) c := by
      intro is
      induction is with
      | nil => exact fun _ => rfl
      | cons j is ih =>
        intro his
        have hj := his j (List.mem_cons_self ..)
        rw [List.flatMap_cons, List.flatMap_cons, gather_append, gather_append,
          ih fun i hi => his i (List.mem_cons_of_mem _ hi)]
        congr 1
        have hterms : (((List.range I.len).map fun k =>
            (k, I.a + j, y (I.dst + k) * ((if j = k then 1 else 0) - y (I.dst + j)))).map fun e =>
              (p.adjCell R e.2.1, adj (p.adjCell R (I.dst + e.1)) * e.2.2)) =
            (List.range I.len).map fun k => (J.a + j, adj (J.dst + k) *
              (y (I.dst + k) * ((if j = k then 1 else 0) - y (I.dst + j)))) := by
          rw [List.map_map]
          refine List.map_congr_left fun k hk => ?_
          simp only [Function.comp, hsrc j hj, hdst k (List.mem_range.1 hk)]
        rw [hterms, gather_map_const, sum_softmax I.len j hj (fun k => y (I.dst + k))
          (fun k => adj (J.dst + k)), hsoft j hj]
        simp
    exact hrow _ fun i hi => List.mem_range.1 hi

/-! ## Reductions -/

lemma AdjOf.backs_mov (h : AdjOf R p k I J x y val) (hc : I.code = .mov) (q : Program V) :
    Backs R p M q k I J x y val := by
  have hcode : J.code = .mov := by rw [h.code, if_neg (by simp [hc]), hc]
  have hout : I.outputLen = 1 := by simp [Instr.outputLen, hc, Code.has, Code.flags]
  refine h.backs_one (by simp [hc]) hout (l := fun adj => [(J.a, adj J.dst)]) (fun adj => ?_)
    fun adj c => ?_
  · simp only [adjStep, hcode]
  · have hsrc := h.operand (by simp [hc]) (by simp [hc]) (by simp [hc]) 0 (by omega)
      (by simp [Instr.reads, Instr.rule, hc, Code.has, Code.flags]) 0
      (by simp [Instr.inputLen, hc, Code.has, Code.flags])
    have hdst := h.dst 0 (by omega)
    simp only [Instr.operand, AdjInstr.operand, Nat.add_zero] at hsrc hdst
    rw [cellsOf_keptPulls (by simp [hc]) (by simp [hc]) (by simp [hc])]
    simp only [Instr.jacobian, hc, List.map_cons, List.map_nil, Nat.add_zero, hsrc, hdst, mul_one]

lemma AdjOf.backs_dot (h : AdjOf R p k I J x y val) (hc : I.code = .dot) (q : Program V) :
    Backs R p M q k I J x y val := by
  have hcode : J.code = .dot := by rw [h.code, if_neg (by simp [hc]), hc]
  have hout : I.outputLen = 1 := by simp [Instr.outputLen, hc, Code.has, Code.flags]
  have hin : I.inputLen 0 = I.len ∧ I.inputLen 1 = I.len := by
    simp [Instr.inputLen, hc, Code.has, Code.flags]
  have hread : I.reads 0 = true ∧ I.reads 1 = true := by
    simp [Instr.reads, Instr.rule, hc, Code.has, Code.flags]
  refine h.backs_one (by simp [hc]) hout (l := fun adj => (List.range I.len).flatMap fun k =>
    [(J.a + k, adj J.dst * val (J.vb + k)), (J.b + k, adj J.dst * val (J.va + k))])
    (fun adj => ?_) fun adj c => ?_
  · simp only [adjStep, hcode, h.len]
  · have hdst := h.dst 0 (by omega)
    rw [cellsOf_keptPulls (by simp [hc]) (by simp [hc]) (by simp [hc])]
    simp only [Instr.jacobian, hc]
    rw [List.map_flatMap]
    congr 1
    refine List.flatMap_congr fun i hi => ?_
    rw [List.mem_range] at hi
    have ha := h.operand (by simp [hc]) (by simp [hc]) (by simp [hc]) 0 (by omega) hread.1 i (by omega)
    have hb := h.operand (by simp [hc]) (by simp [hc]) (by simp [hc]) 1 (by omega) hread.2 i (by omega)
    have hva := h.value_at (by simp [hc]) (j := 0) (i := i) (by omega)
      (by simp [wantsOperand, Instr.rule, hc, Code.has, Code.flags]) (by omega)
    have hvb := h.value_at (by simp [hc]) (j := 1) (i := i) (by omega)
      (by simp [wantsOperand, Instr.rule, hc, Code.has, Code.flags]) (by omega)
    simp only [Instr.operand, AdjInstr.operand, AdjInstr.value, Nat.add_zero] at ha hb hva hvb hdst
    simp only [List.map_cons, List.map_nil, Nat.add_zero, ha, hb, hva, hvb, hdst]

lemma AdjOf.backs_lseRange (h : AdjOf R p k I J x y val) (hc : I.code = .lseRange) (q : Program V) :
    Backs R p M q k I J x y val := by
  have hcode : J.code = .lseRange := by rw [h.code, if_neg (by simp [hc]), hc]
  have hout : I.outputLen = 1 := by simp [Instr.outputLen, hc, Code.has, Code.flags]
  have hin : I.inputLen 0 = I.len := by simp [Instr.inputLen, hc, Code.has, Code.flags]
  refine h.backs_one (by simp [hc]) hout (l := fun adj => (List.range I.len).map fun k =>
    (J.a + k, adj J.dst * M.expPartial (val (J.va + k) - val J.vd))) (fun adj => ?_) fun adj c => ?_
  · simp only [adjStep, hcode, h.len]
  · have hdst := h.dst 0 (by omega)
    have hvd := h.out (by simp [Instr.rule, hc, Code.has, Code.flags]) 0 (by omega)
    rw [cellsOf_keptPulls (by simp [hc]) (by simp [hc]) (by simp [hc])]
    simp only [Instr.jacobian, hc]
    rw [List.map_map]
    congr 1
    refine List.map_congr_left fun i hi => ?_
    rw [List.mem_range] at hi
    have ha := h.operand (by simp [hc]) (by simp [hc]) (by simp [hc]) 0 (by omega)
      (by simp [Instr.reads, Instr.rule, hc, Code.has, Code.flags]) i (by omega)
    have hva := h.value_at (by simp [hc]) (j := 0) (i := i) (by omega)
      (by simp [wantsOperand, Instr.rule, hc, Code.has, Code.flags]) (by omega)
    simp only [Instr.operand, AdjInstr.operand, AdjInstr.value, Nat.add_zero] at ha hva hvd hdst
    simp only [Function.comp, Nat.add_zero, ha, hva, hvd, hdst]

/-- The rule of an index, which the forward checked. -/
lemma AdjOf.backs_dynIndex (h : AdjOf R p k I J x y val) (hc : I.code = .dynIndex)
    (hidx : (M.toInt (x I.b) - 1).toNat < I.len) (q : Program V) : Backs R p M q k I J x y val := by
  have hcode : J.code = .dynIndex := by rw [h.code, if_neg (by simp [hc]), hc]
  have hout : I.outputLen = 1 := by simp [Instr.outputLen, hc, Code.has, Code.flags]
  refine h.backs_one (by simp [hc]) hout
    (l := fun adj => [(J.a + (M.toInt (val J.vb) - 1).toNat, adj J.dst)]) (fun adj => ?_)
    fun adj c => ?_
  · simp only [adjStep, hcode]
  · have hdst := h.dst 0 (by omega)
    have hsrc := h.dynIndex hc _ hidx
    have hvb := h.value_at (by simp [hc]) (j := 1) (i := 0) (by omega)
      (by simp [wantsOperand, Instr.rule, hc, Code.has, Code.flags])
      (by simp [Instr.inputLen, hc, Code.has, Code.flags])
    simp only [Instr.operand, AdjInstr.value, Nat.add_zero] at hvb hdst
    rw [cellsOf_keptPulls (by simp [hc]) (by simp [hc]) (by simp [hc])]
    simp only [Instr.jacobian, hc, List.map_cons, List.map_nil, Nat.add_zero, hvb, hsrc, hdst, mul_one]

/-! ## Elementwise ranges -/

omit [Field V] in
/-- Element `i` of an operand of a range, in the registers and in the cells. -/
lemma AdjOf.stride (h : AdjOf R p k I J x y val) (hc : I.code = .range) {j i : ℕ}
    (hread : I.reads j = true) (hj : j < 3) (hi : i < I.len) :
    I.stride j * i < I.inputLen j ∧ J.stride j * i = I.stride j * i := by
  refine ⟨stride_lt hc j hi, ?_⟩
  have hin : I.inputLen j = if I.bcast.testBit j then 1 else I.len := if_pos hc
  have hsub : j = 0 ∨ I.sub.has (if j = 1 then .readB else .readC) = true := by
    match j with
    | 0 => exact Or.inl rfl
    | 1 => exact Or.inr (by simpa [Instr.reads, Instr.rule, hc] using hread)
    | 2 => exact Or.inr (by simpa [Instr.reads, Instr.rule, hc] using hread)
  unfold Instr.stride AdjInstr.stride
  rw [hin, h.sub, h.bcast]
  by_cases hb : I.bcast.testBit j = true
  · simp [hb]
  · rcases lt_or_ge 1 I.len with hlt | hle
    · simp [hb, hlt, hread, hsub]
    · obtain rfl : i = 0 := by omega
      simp

/-- The rule of an elementwise range: the scalar rule on every element. -/
lemma AdjOf.backs_range (h : AdjOf R p k I J x y val) (hc : I.code = .range)
    (hsub : I.sub.elementwise = true) (hch : p.Checked R k I) (hcells : CellsApart R p I)
    (hdiv : I.sub = .div → ∀ i < I.len,
      y (I.dst + i) = x (I.a + I.stride 0 * i) / x (I.b + I.stride 1 * i)) (q : Program V) :
    Backs R p M q k I J x y val := by
  have hcode : J.code = .range := by rw [h.code, if_neg (by simp [hc]), hc]
  have hout : I.outputLen = I.len := if_pos hc
  have hrule : I.rule = I.sub := if_pos hc
  have hmask : J.mask = I.law := by rw [h.mask, if_pos hc]
  have hran : I.isRangedDensity R = false := by simp [Instr.isRangedDensity, hc]
  have hdst : ∀ i < I.len, p.adjCell R (I.dst + i) = J.dst + i := fun i hi => h.dst i (by omega)
  have hcell : ∀ {j i}, j < 3 → I.reads j = true → i < I.len →
      p.adjCell R (I.operand j + I.stride j * i) = J.operand j + J.stride j * i := by
    intro j i hj hread hi
    obtain ⟨h1, h2⟩ := h.stride hc hread hj hi
    rw [h.operand (by simp [hc]) (by simp [hc]) (by simp [hc]) j hj hread _ h1, h2]
  have hindex : ∀ {e : ℕ × V} {t va vb vc vd}, e ∈ M.pull I.sub I.law t va vb vc vd →
      e.1 < 3 ∧ I.reads e.1 = true := by
    intro e t va vb vc vd he
    rcases M.mem_pull hsub he with h0 | ⟨h1, hb⟩ | ⟨h2, hb⟩
    · simp [h0, Instr.reads, hrule, Code.elementwise.noInputs hsub]
    · simp [h1, Instr.reads, hrule, hb]
    · simp [h2, Instr.reads, hrule, hb]
  refine h.backs_loop (by simp [hc]) (f := fun _ k u =>
    (M.pull I.sub I.law u (val (J.va + J.stride 0 * k)) (val (J.vb + J.stride 1 * k))
      (val (J.vc + J.stride 2 * k)) (val (J.vd + k))).map fun e =>
        (J.operand e.1 + J.stride e.1 * k, e.2)) (fun adj => ?_) (fun _ i j u hij hj e he => ?_)
    fun adj c => ?_
  · rw [hout]
    simp only [adjStep, hcode, rangedStep, h.sub, hmask, h.len]
  · -- An operand is outside what the instruction writes, or moves along with it.
    obtain ⟨d, hd, rfl⟩ := List.mem_map.1 he
    obtain ⟨hlt, hread⟩ := hindex hd
    have hi : i < I.len := by omega
    obtain ⟨hs, -⟩ := h.stride hc hread hlt hi
    simp only
    rw [← hcell hlt hread hi, ← hdst j (by omega)]
    intro heq
    have hreg := hcells _ (mem_readRegs (by simp [hc]) (by simp [hc]) (by simp [hc]) hlt hread hs) (I.dst + j)
      (by rw [defines_of_ne_call (by simp [hc]), Span.mem_regs]; simp only; omega) heq
    have := hch.rangeOperand hc hlt hread hi
    omega
  · rw [cellsOf_keptPulls (by simp [hc]) (by simp [hc]) (by simp [hc]), hout]
    simp only [Instr.jacobian, hc]
    rw [List.map_flatMap]
    refine gather_perm (List.Perm.flatMap_left _ fun i hi => ?_) c
    rw [List.mem_range] at hi
    have hval : ∀ {j}, j < 3 → I.reads j = true → wantsOperand R I j = true →
        val (J.value j + J.stride j * i) = x (I.operand j + I.stride j * i) := by
      intro j hj hread hw
      obtain ⟨h1, h2⟩ := h.stride hc hread hj hi
      rw [h2]
      exact h.value_at (by simp [hc]) hj hw h1
    have hperm := M.pull_perm hsub I.law (adj (J.dst + i))
      (a := val (J.va + J.stride 0 * i)) (b := val (J.vb + J.stride 1 * i))
      (c := val (J.vc + J.stride 2 * i)) (d := val (J.vd + i))
      (x := x (I.a + I.stride 0 * i)) (y := x (I.b + I.stride 1 * i))
      (z := x (I.c.toNat + I.stride 2 * i)) (o := y (I.dst + i))
      (fun hw => hval (j := 0) (by omega)
        (by simp [Instr.reads, hrule, Code.elementwise.noInputs hsub])
        (by simpa [wantsOperand, hc, hrule] using hw))
      (fun hw => hval (j := 1) (by omega) (has_readB_of_saveB (hrule ▸ hw))
        (by simpa [wantsOperand, hc, hrule] using hw))
      (fun hw => hval (j := 2) (by omega) (has_readC_of_saveC (hrule ▸ hw))
        (by simpa [wantsOperand, hc, hrule] using hw))
      (fun hw => h.out (hrule ▸ hw) i (by omega)) (fun hd => hdiv hd i hi)
    refine (hperm.map _).trans (List.Perm.of_eq ?_)
    rw [List.map_map, List.map_map]
    refine List.map_congr_left fun e he => ?_
    obtain ⟨hlt, hread⟩ := hindex (hperm.mem_iff.2 (List.mem_map_of_mem he))
    simp only [Function.comp, hcell hlt hread hi, hdst i hi]

/-! ## Densities -/

omit [Field V] in
/-- The bits of a sum of powers of two. -/
lemma testBit_sum_pow {α : Type*} (P : α → Prop) [DecidablePred P] (l : List α) {k : ℕ}
    (hk : k < l.length) :
    (l.zipIdx.map fun r : α × ℕ => if P r.1 then 2 ^ r.2 else 0).sum.testBit k =
      decide (P l[k]) := by
  have hshift : ∀ (l : List α) (m : ℕ),
      ((l.zipIdx m).map fun r : α × ℕ => if P r.1 then 2 ^ r.2 else 0).sum =
        2 ^ m * (l.zipIdx.map fun r : α × ℕ => if P r.1 then 2 ^ r.2 else 0).sum := by
    intro l
    induction l with
    | nil => simp
    | cons a l ih =>
      intro m
      rw [List.zipIdx_cons, List.zipIdx_cons, List.map_cons, List.map_cons, List.sum_cons,
        List.sum_cons, ih, ih (0 + 1)]
      split <;> ring
  induction l generalizing k with
  | nil => simp at hk
  | cons a l ih =>
    rw [List.zipIdx_cons, List.map_cons, List.sum_cons, hshift]
    generalize hs : (l.zipIdx.map fun r : α × ℕ => if P r.1 then 2 ^ r.2 else 0).sum = s at ih ⊢
    cases k with
    | zero =>
      rw [Nat.testBit_zero, List.getElem_cons_zero]
      by_cases ha : P a
      · simp [ha]
      · simp [ha]
    | succ k =>
      rw [Nat.testBit_succ, List.getElem_cons_succ, ← ih (by simpa using hk)]
      congr 1
      dsimp only
      split <;> omega

omit [Field V] in
/-- The mask of a density names its active arguments. -/
lemma densityMask_testBit (hc : I.code = .density) {j : ℕ} (hj : j < (I.densityArgs R).length) :
    (p.densityMask R k I).testBit j = decide ((I.densityArgs R)[j] ∈ p.activeAt R k) := by
  rw [densityMask, if_pos hc]
  exact testBit_sum_pow (fun r => r ∈ p.activeAt R k) _ hj

/-- The rule of a density, for its active arguments. -/
lemma AdjOf.backs_density (h : AdjOf R p k I J x y val) (hc : I.code = .density)
    (hR : M.toRegistry = R) (q : Program V) : Backs R p M q k I J x y val := by
  have hcode : J.code = .density := by rw [h.code, if_neg (by simp [hc]), hc]
  have hout : I.outputLen = 1 := by simp [Instr.outputLen, hc, Code.has, Code.flags]
  have hmask : J.mask = p.densityMask R k I := by rw [h.mask, if_neg (by simp [hc])]
  have harity : M.densityArity = R.densityArity := by rw [← hR]
  have hdst := h.dst 0 (by omega)
  rw [Nat.add_zero, Nat.add_zero] at hdst
  -- The contributions, from where the backward finds the values and the cells of the arguments.
  have key : ∀ (cell : ℕ → ℕ) (args : List V), args = (I.densityArgs R).map x →
      (∀ j (hj : j < (I.densityArgs R).length), p.adjCell R ((I.densityArgs R)[j]) = cell j) →
      ∀ (adj : ℕ → V) (c : ℕ), gather (J.densityPulls M (adj J.dst) args cell) c = gather
        (cellsOf (p.adjCell R) (p.keptPulls R M k I x y fun w => adj (p.adjCell R w))) c := by
    rintro cell args rfl hcell adj c
    rw [AdjInstr.densityPulls, gather_perm (List.reverse_perm _), keptPulls, if_neg (by simp [hc]),
      if_pos hc, pulled, if_neg (by simp [hc])]
    simp only [Instr.jacobian, hc, hR]
    rw [List.map_map, List.filter_map, cellsOf, List.map_map, List.length_map, hmask]
    have hfilter : ((List.range (I.densityArgs R).length).filter fun j =>
        (p.densityMask R k I).testBit j) = (List.range (I.densityArgs R).length).filter
          ((fun e => decide (e.1 ∈ p.activeAt R k)) ∘ (fun e : ℕ × ℕ × V =>
            (e.2.1, adj (p.adjCell R (I.dst + e.1)) * e.2.2)) ∘ fun j =>
              (0, (I.densityArgs R).getD j 0, M.densityPartial I.len ((I.densityArgs R).map x) j)) := by
      refine List.filter_congr fun j hj => ?_
      rw [List.mem_range] at hj
      rw [densityMask_testBit hc hj]
      simp [List.getD_eq_getElem?_getD, List.getElem?_eq_getElem hj]
    rw [hfilter]
    congr 1
    refine List.map_congr_left fun j hj => ?_
    have hlt := List.mem_range.1 (List.mem_filter.1 hj).1
    simp only [Function.comp, Nat.add_zero, hdst, h.len, List.getD_eq_getElem?_getD,
      List.getElem?_eq_getElem hlt, Option.getD_some, hcell j hlt]
  by_cases hlt : 3 < R.densityArity I.len
  · have hargs : I.densityArgs R = (Span.mk I.a (R.densityArity I.len)).regs := if_pos hlt
    have hran : I.isRangedDensity R = true := by simp [Instr.isRangedDensity, hc, hlt]
    refine h.backs_one (by simp [hc]) hout (l := fun adj => J.densityPulls M (adj J.dst)
      ((Span.mk J.va (R.densityArity I.len)).read val) fun j => J.a + j) (fun adj => ?_) ?_
    · simp only [adjStep, hcode, harity, h.len, if_pos hlt]
      split
      · rename_i hzero
        simp [AdjInstr.densityPulls, hzero, addAll]
      · rfl
    · refine fun adj c => key (fun j => J.a + j) _ ?_ (fun j hj => ?_) adj c
      · rw [hargs, Span.read, Span.regs, Span.regs, List.map_map, List.map_map]
        refine List.map_congr_left fun j hj => ?_
        have := h.value 0 (by omega) (by simp [wantsOperand, hc]) j
          (by simpa [savedLen, hran] using hj)
        simpa [AdjInstr.value, Instr.operand] using this
      · have hj' : j < R.densityArity I.len := by simpa [hargs, Span.regs] using hj
        simp only [hargs, Span.regs, List.getElem_map, List.getElem_range]
        exact h.ranged hc hlt j hj'
  · have hargs : I.densityArgs R = (List.range (R.densityArity I.len)).map I.operand := if_neg hlt
    have hran : I.isRangedDensity R = false := by simp [Instr.isRangedDensity, hlt]
    refine h.backs_one (by simp [hc]) hout (l := fun adj => J.densityPulls M (adj J.dst)
      ((List.range (R.densityArity I.len)).map fun j => val (J.value j)) J.operand) (fun adj => ?_) ?_
    · simp only [adjStep, hcode, harity, h.len, if_neg hlt]
      split
      · rename_i hzero
        simp [AdjInstr.densityPulls, hzero, addAll]
      · rfl
    · refine fun adj c => key J.operand _ ?_ (fun j hj => ?_) adj c
      · rw [hargs, List.map_map]
        refine List.map_congr_left fun j hj => ?_
        rw [List.mem_range] at hj
        have := h.value j (by omega) (by simp [wantsOperand, hc]; omega) 0
          (by simp [savedLen, hran, Instr.inputLen, hc, Code.has, Code.flags])
        simpa using this
      · have hj' : j < R.densityArity I.len := by simpa [hargs] using hj
        simp only [hargs, List.getElem_map, List.getElem_range]
        exact h.density hc (by omega) j

end IslandProg

/-- What the registered kernels say of their backward holds: the values that a kernel does not declare
do not matter to it, and from adjoints that are zero it adds nothing. -/
structure StanMath.HonestKernels (M : StanMath V E S) : Prop where
  reads : ∀ (call : Call) (f : ℕ), call.backward = some f →
    ∀ (ins ins' : List (List V)) (out out' scratch adj : List V), ins.length = ins'.length →
      (∀ j, (M.callReads call).input j = true → ins[j]? = ins'[j]?) →
      ((M.callReads call).output = true → out = out') →
      M.backward f call.shape ins out scratch adj = M.backward f call.shape ins' out' scratch adj
  zero : ∀ (f : ℕ) (shape : CallShape) (ins : List (List V)) (out scratch adj : List V),
    (∀ t ∈ adj, t = 0) → ∀ amounts ∈ M.backward f shape ins out scratch adj, ∀ t ∈ amounts, t = 0

namespace IslandProg

variable {R : Registry} {p : IslandProg V} {M : StanMath V E S} {k : ℕ} {I : Instr}
  {x y val : ℕ → V}

/-! ## Calls -/

omit [Field V] in
lemma read_congr {r r' len : ℕ} {f g : ℕ → V} (h : ∀ i < len, f (r + i) = g (r' + i)) :
    (Span.mk r len).read f = (Span.mk r' len).read g := by
  rw [Span.read, Span.read, Span.regs, Span.regs, List.map_map, List.map_map]
  exact List.map_congr_left fun i hi => h i (List.mem_range.1 hi)

/-- The contributions of a call, in the cells of its inputs. -/
lemma pulls_cells {call bound : Call} (h : CallCells R p call bound)
    (amounts : List (List V)) : bound.pulls bound.bwdAdjIn amounts =
      cellsOf (p.adjCell R) (call.pulls (call.ins.map Span.reg) amounts) := by
  unfold Call.pulls cellsOf
  rw [h.ins, h.mask, List.map_flatMap]
  refine List.flatMap_congr fun j hj => ?_
  rw [List.mem_range] at hj
  split
  · rw [List.map_map]
    have hget : call.ins[j]? = some call.ins[j] := List.getElem?_eq_getElem hj
    refine List.map_congr_left fun i hi => ?_
    simp only [List.getD_eq_getElem?_getD, List.getElem?_map, hget, Option.map_some,
      Option.getD_some, List.mem_range] at hi
    have := h.adjIn j _ hget i hi
    rw [List.getD_eq_getElem?_getD] at this
    simp only [Function.comp, List.getD_eq_getElem?_getD, List.getElem?_map, hget, Option.map_some,
      Option.getD_some, this]
  · rfl

/-- A call contributes to registers of its inputs. -/
lemma mem_pulls {call : Call} {amounts : List (List V)} {e : ℕ × V}
    (h : e ∈ call.pulls (call.ins.map Span.reg) amounts) : ∃ s ∈ call.ins, e.1 ∈ s.regs := by
  unfold Call.pulls at h
  obtain ⟨j, hj, he⟩ := List.mem_flatMap.1 h
  rw [List.mem_range] at hj
  split at he
  · obtain ⟨i, hi, rfl⟩ := List.mem_map.1 he
    have hget : call.ins[j]? = some call.ins[j] := List.getElem?_eq_getElem hj
    simp only [List.getD_eq_getElem?_getD, List.getElem?_map, hget, Option.map_some,
      Option.getD_some, List.mem_range] at hi
    refine ⟨call.ins[j], List.getElem_mem hj, Span.mem_regs.2 ?_⟩
    simp only [List.getD_eq_getElem?_getD, List.getElem?_map, hget, Option.map_some,
      Option.getD_some]
    omega
  · simp at he

/-- The rule of a call: the pullback of its kernel. -/
lemma CallOf.backs {call bound : Call} (h : CallOf R p call bound x y val)
    (hcall : p.callOf I = some call) (hM : M.HonestKernels) (hR : M.toRegistry = R)
    (hback : call.backward.isSome = true) (hcells : CellsApart R p I)
    (hapart : ∀ s ∈ call.ins, ∀ r ∈ s.regs, r ∉ call.out.regs) {q : Program V} {m : ℕ}
    (hq : q.calls[m]? = some bound) :
    Backs R p M q k I { code := .call, a := m } x y val := by
  obtain ⟨hcode, hget⟩ := code_of_callOf hcall
  obtain ⟨f, hf⟩ := Option.isSome_iff_exists.1 hback
  have hdefines : p.defines I = call.out.regs := by rw [defines, if_pos hcode, hget]
  intro adj c
  have houtAdj : (Span.mk bound.bwdAdjOut call.out.len).read adj =
      call.out.read fun w => adj (p.adjCell R w) :=
    (read_congr fun i hi => by rw [h.adjOut i hi]).symm
  have hscratch : call.scratch.read val = call.scratch.read y :=
    List.map_congr_left fun r hr => h.valueScratch r hr
  have hamounts : M.backward f call.shape
      ((bound.bwdValueIn.zip (call.ins.map Span.len)).map fun i => (Span.mk i.1 i.2).read val)
      ((Span.mk bound.bwdValueOut call.out.len).read val) (call.scratch.read val)
      ((Span.mk bound.bwdAdjOut call.out.len).read adj) =
      M.backward f call.shape (call.ins.map fun i => i.read x) (call.out.read y)
        (call.scratch.read y) (call.out.read fun w => adj (p.adjCell R w)) := by
    rw [houtAdj, hscratch]
    refine hM.reads call f hf _ _ _ _ _ _ ?_ (fun j hj => ?_) fun hread => ?_
    · simp [h.valueLen]
    · rw [List.getElem?_map, List.getElem?_map, List.zip, List.getElem?_zipWith, List.getElem?_map]
      cases hj' : call.ins[j]? with
      | none =>
        rw [Option.map_none]
        cases bound.bwdValueIn[j]? <;> rfl
      | some s =>
        have hlt : j < bound.bwdValueIn.length :=
          h.valueLen ▸ (List.getElem?_eq_some_iff.1 hj').1
        have hv := h.valueIn j s hj' (hR ▸ hj)
        rw [List.getD_eq_getElem?_getD, List.getElem?_eq_getElem hlt, Option.getD_some] at hv
        rw [List.getElem?_eq_getElem hlt]
        exact congrArg some (read_congr hv)
    · refine read_congr fun i hi => h.valueOut (hR ▸ hread) i hi
  have hkept : p.keptPulls R M k I x y (fun w => adj (p.adjCell R w)) =
      call.pulls (call.ins.map Span.reg) (M.backward f call.shape
        (call.ins.map fun i => i.read x) (call.out.read y) (call.scratch.read y)
          (call.out.read fun w => adj (p.adjCell R w))) := by
    rw [keptPulls, if_neg (by simp [hcode]), if_neg (by simp [hcode]), pulled, if_pos hcode]
    simp only [hget, hf]
  rw [hkept, ← hamounts]
  have hstep : adjStep M q val { code := .call, a := m } adj = clearRun (addAll adj
      (bound.pulls bound.bwdAdjIn (M.backward f call.shape
        ((bound.bwdValueIn.zip (call.ins.map Span.len)).map fun i => (Span.mk i.1 i.2).read val)
        ((Span.mk bound.bwdValueOut call.out.len).read val) (call.scratch.read val)
        ((Span.mk bound.bwdAdjOut call.out.len).read adj)))) bound.bwdAdjOut call.out.len := by
    simp only [adjStep, hq, h.backward, hf, h.shape, h.ins, h.out, h.scratch]
  rw [hstep, pulls_cells h.toCallCells, hdefines]
  generalize M.backward f call.shape _ _ _ _ = amounts
  by_cases hc : ∃ w ∈ call.out.regs, p.adjCell R w = c
  · obtain ⟨w, hw, rfl⟩ := hc
    have hw' := Span.mem_regs.1 hw
    have hcell := h.adjOut (w - call.out.reg) (by omega)
    rw [Nat.add_sub_cancel' hw'.1] at hcell
    rw [clearRun, if_pos (by omega), clearCells, if_pos ⟨w, hw, rfl⟩, zero_add, gather_eq_zero]
    intro e he
    obtain ⟨d, hd, rfl⟩ := List.mem_map.1 he
    obtain ⟨s, hs, hr⟩ := mem_pulls hd
    intro heq
    have hread : d.1 ∈ p.readRegs R I := mem_readRegs_of_call hcode hget hs hr
    have := hcells _ hread w (hdefines ▸ hw) heq
    exact hapart s hs d.1 hr (this ▸ hw)
  · have hne : ¬(bound.bwdAdjOut ≤ c ∧ c < bound.bwdAdjOut + call.out.len) := by
      rintro ⟨h1, h2⟩
      refine hc ⟨call.out.reg + (c - bound.bwdAdjOut), Span.mem_regs.2 ⟨by omega, by omega⟩, ?_⟩
      rw [h.adjOut _ (by omega)]
      omega
    rw [clearRun, if_neg hne, clearCells, if_neg hc, addAll_apply]

end IslandProg

end Stanli
