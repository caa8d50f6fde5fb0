import Mathlib.Logic.Relation
import Stanli.Program.GenAdjointSound

/-!
# Differentiated extrema

The backward that `gen_adjoint` generates clears the adjoint of an `EXTREMA_RANGE` and passes nothing
on, so a program in which the result of an extremum reaches a live-out through value operands has to
be refused.  `FlowStep` is one step of a value along a control path: it stays in its register, or an
instruction carries it into what it computes.  The search of `gen_adjoint` follows these steps, except
that of a `DENSITY` with two or three arguments it only follows the first.
-/

namespace Stanli

open Program

namespace IslandProg

variable {V E S : Type*} {R : Registry} {p : IslandProg V}

/-! ## Values along control paths -/

/-- One step of a value, from a register in front of a position to a register in front of the next
one: an instruction that does not write the register leaves it there, and one that differentiates
through it carries it into what it computes. -/
inductive FlowStep (R : Registry) (p : IslandProg V) : ℕ × ℕ → ℕ × ℕ → Prop
  | keep {pc pc' r : ℕ} {I : Instr} (hI : p.code[pc]? = some I) (hnext : pc' ∈ I.successors pc)
    (hr : r ∉ p.writes I) : FlowStep R p (pc, r) (pc', r)
  | carry {pc pc' r w : ℕ} {I : Instr} (hI : p.code[pc]? = some I) (hnext : pc' ∈ I.successors pc)
    (hr : r ∈ p.carriers R I) (hw : w ∈ p.defines I) : FlowStep R p (pc, r) (pc', w)

/-- A value flows from a register in front of a position to a register in front of another. -/
def Flows (R : Registry) (p : IslandProg V) : ℕ × ℕ → ℕ × ℕ → Prop :=
  Relation.ReflTransGen (FlowStep R p)

/-- The result of some `EXTREMA_RANGE` flows to a register in front of a position. -/
def ExtremumReaches (R : Registry) (p : IslandProg V) (x : ℕ × ℕ) : Prop :=
  ∃ (pc : ℕ) (I : Instr) (pc' : ℕ), p.code[pc]? = some I ∧ I.code = .extremaRange ∧
    pc' ∈ I.successors pc ∧ Flows R p (pc', I.dst) x

/-- A value flows to a live-out. -/
def ReachesLiveOut (R : Registry) (p : IslandProg V) (x : ℕ × ℕ) : Prop :=
  ∃ out ∈ p.outRegs, Flows R p x (p.code.length, out)

/-- No result of an `EXTREMA_RANGE` reaches a live-out through value operands. -/
def NoExtremumReaches (R : Registry) (p : IslandProg V) : Prop :=
  ∀ out ∈ p.outRegs, ¬ExtremumReaches R p (p.code.length, out)

/-- No result of an `EXTREMA_RANGE` reaches the second or third argument of a scalar `DENSITY` whose
result reaches a live-out. -/
def DensityArgsPlain (R : Registry) (p : IslandProg V) : Prop :=
  ∀ (pc : ℕ) (I : Instr) (pc' k : ℕ), p.code[pc]? = some I → I.code = .density → R.densityArity I.len ≤ 3 →
    0 < k → k < R.densityArity I.len → pc' ∈ I.successors pc →
      ¬(ExtremumReaches R p (pc, I.operand k) ∧ ReachesLiveOut R p (pc', I.dst))

/-! ## What the search follows -/

/-- A value operand that the search does not follow is the second or third argument of a density. -/
lemma valueOperands_cases {I : Instr} {r : ℕ} (h : r ∈ valueOperands R I) :
    r ∈ sweptOperands R I ∨ I.code = .density ∧ R.densityArity I.len ≤ 3 ∧
      ∃ k, 0 < k ∧ k < R.densityArity I.len ∧ r = I.operand k := by
  unfold valueOperands at h
  split at h
  · rename_i hden
    unfold Instr.densityArgs at h
    split at h
    · rename_i harity
      left
      simpa [sweptOperands, Instr.isRangedDensity, hden, harity] using h
    · rename_i harity
      obtain ⟨k, hk, rfl⟩ := List.mem_map.1 h
      rw [List.mem_range] at hk
      rcases Nat.eq_zero_or_pos k with rfl | hpos
      · left
        have hread : I.reads 0 = true := by simp [Instr.reads, Instr.rule, hden, Code.has, Code.flags]
        have hlen : I.inputLen 0 = 1 := by simp [Instr.inputLen, hden, Code.has, Code.flags]
        have hran : I.isRangedDensity R = false := by simp [Instr.isRangedDensity, harity]
        simp only [sweptOperands, hran, hden, Bool.false_eq_true, if_false, reduceCtorEq]
        refine List.mem_flatMap.2 ⟨0, by simp, ?_⟩
        rw [if_pos hread, hlen]
        exact Span.mem_regs.2 ⟨le_rfl, Nat.lt_succ_self _⟩
      · exact Or.inr ⟨hden, not_lt.1 harity, k, hpos, hk, rfl⟩
  · exact Or.inl h

/-- Control goes forward and stays in the program. -/
lemma successors_le (h : p.accepts R = true) {pc pc' : ℕ} {I : Instr} (hI : p.code[pc]? = some I)
    (hnext : pc' ∈ I.successors pc) : pc < pc' ∧ pc' ≤ p.code.length := by
  have hlt := (List.getElem?_eq_some_iff.1 hI).1
  have hjump := (checked_of_accepts h hI).jump
  unfold Instr.successors at hnext
  split at hnext
  · have := hjump (by simp [Instr.isJump, *])
    simp only [List.mem_cons, List.not_mem_nil, or_false] at hnext
    omega
  · have := hjump (by simp [Instr.isJump, *])
    simp only [List.mem_cons, List.not_mem_nil, or_false] at hnext
    omega
  · simp at hnext
  · simp only [List.mem_cons, List.not_mem_nil, or_false] at hnext
    omega

/-- A value that flows to another register has moved forward. -/
lemma Flows.lt (h : p.accepts R = true) {x y : ℕ × ℕ} (hxy : Flows R p x y) : x = y ∨ x.1 < y.1 := by
  induction hxy with
  | refl => exact Or.inl rfl
  | @tail y z _ hstep ih =>
    have hlt : y.1 < z.1 := by
      cases hstep with
      | keep hI hnext => exact (successors_le h hI hnext).1
      | carry hI hnext => exact (successors_le h hI hnext).1
    rcases ih with rfl | ih
    · exact Or.inr hlt
    · exact Or.inr (ih.trans hlt)

/-- The search of an accepted program. -/
lemma neededFrom_of_accepts (h : p.accepts R = true) (k : ℕ) :
    ∃ needed, p.neededFrom (sweptOperands R) k = some needed := by
  simp only [accepts, Bool.and_eq_true] at h
  obtain ⟨needed, hneeded⟩ := Option.isSome_iff_exists.1 h.1.2
  obtain ⟨needed', h', -⟩ := neededFrom_mono (Nat.zero_le k) (show
    p.neededFrom (sweptOperands R) 0 = some needed by rw [neededFrom, List.drop_zero]; exact hneeded)
  exact ⟨needed', h'⟩

/-- What the search needs at a position. -/
def Needed (R : Registry) (p : IslandProg V) (x : ℕ × ℕ) : Prop :=
  ∃ needed, p.neededFrom (sweptOperands R) x.1 = some needed ∧ x.2 ∈ needed

lemma Needed.mono (h : p.accepts R = true) {pc pc' r : ℕ} (hle : pc ≤ pc')
    (hr : Needed R p (pc', r)) : Needed R p (pc, r) := by
  obtain ⟨needed, hneeded⟩ := neededFrom_of_accepts h pc
  obtain ⟨needed', h', hsub⟩ := neededFrom_mono hle hneeded
  obtain ⟨needed'', h'', hmem⟩ := hr
  obtain rfl := Option.some.inj (h'.symm.trans h'')
  exact ⟨needed, hneeded, hsub r hmem⟩

/-- The search meets no needed extremum, and follows an instruction that computes a needed register
to its operands. -/
lemma Needed.step (h : p.accepts R = true) {pc pc' w : ℕ} {I : Instr} (hI : p.code[pc]? = some I)
    (hnext : pc' ∈ I.successors pc) (hw : w ∈ p.defines I) (hneeded : Needed R p (pc', w)) :
    I.code ≠ .extremaRange ∧ ∀ r ∈ p.carriers R I,
      Needed R p (pc, r) ∨ I.code = .density ∧ r ∈ valueOperands R I ∧ r ∉ sweptOperands R I := by
  have hch := checked_of_accepts h hI
  obtain ⟨after, hafter, hmem⟩ := hneeded.mono h (successors_le h hI hnext).1
  obtain ⟨needed, hfrom⟩ := neededFrom_of_accepts h pc
  have hstep := hfrom
  rw [neededFrom_step hI, hafter, Option.bind_some] at hstep
  obtain ⟨hcall, hplain⟩ := neededStep_of_needed (R := R) hch hstep hw hmem
  by_cases hc : I.code = .call
  · exact ⟨by simp [hc], fun r hr => Or.inl ⟨needed, hfrom, hcall hc hr⟩⟩
  · have hdis : I.code = .extremaRange → I.code.isDiscrete = false := fun hx => by
      rw [hx]
      decide
    refine ⟨fun hx => (hplain hc (hdis hx)).1 hx, fun r hr => ?_⟩
    simp only [carriers, callOf_eq_none hc] at hr
    split at hr
    · simp at hr
    · rename_i hd
      obtain ⟨-, hsub⟩ := hplain hc (by simpa using hd)
      by_cases hswept : r ∈ sweptOperands R I
      · exact Or.inl ⟨needed, hfrom, hsub hswept⟩
      · refine Or.inr ⟨?_, hr, hswept⟩
        exact ((valueOperands_cases hr).resolve_left hswept).1

/-- A value that reaches a live-out is needed, or reaches it through a density argument that the
search does not follow. -/
lemma needed_or_density (h : p.accepts R = true) {x : ℕ × ℕ} {out : ℕ} (hout : out ∈ p.outRegs)
    (hx : Flows R p x (p.code.length, out)) :
    Needed R p x ∨ ∃ (pc : ℕ) (I : Instr) (pc' k : ℕ), p.code[pc]? = some I ∧ I.code = .density ∧
      R.densityArity I.len ≤ 3 ∧ 0 < k ∧ k < R.densityArity I.len ∧ pc' ∈ I.successors pc ∧
        Flows R p x (pc, I.operand k) ∧ ReachesLiveOut R p (pc', I.dst) := by
  induction hx using Relation.ReflTransGen.head_induction_on with
  | refl =>
    left
    refine ⟨p.outRegs, ?_, hout⟩
    rw [neededFrom, List.drop_length]
    rfl
  | @head x y hstep hrest ih =>
    rcases ih with hneeded | ⟨pc, I, pc', k, hI, hden, harity, hpos, hk, hnext, hflow, hlive⟩
    · cases hstep with
      | keep hI hnext hr => exact Or.inl (hneeded.mono h (successors_le h hI hnext).1.le)
      | @carry pc pc' r w I hI hnext hr hw =>
        rcases (hneeded.step h hI hnext hw).2 r hr with hn | ⟨hden, hval, hswept⟩
        · exact Or.inl hn
        · obtain ⟨-, harity, k, hpos, hk, rfl⟩ := (valueOperands_cases hval).resolve_left hswept
          have hdef : w = I.dst := by
            have hc : I.code ≠ .call := by simp [hden]
            rw [defines_of_ne_call hc] at hw
            simp only [Span.mem_regs, Instr.outputLen, hden, Code.has, Code.flags] at hw
            simp at hw
            omega
          subst hdef
          exact Or.inr ⟨pc, I, pc', k, hI, hden, harity, hpos, hk, hnext, .refl, out, hout, hrest⟩
    · exact Or.inr ⟨pc, I, pc', k, hI, hden, harity, hpos, hk, hnext, hflow.head hstep, hlive⟩

/-- In an accepted program no extremum reaches a live-out if and only if none does so through the
second or third argument of a density. -/
theorem noExtremumReaches_iff (h : p.accepts R = true) :
    NoExtremumReaches R p ↔ DensityArgsPlain R p := by
  constructor
  · intro hno pc I pc' k hI hden harity hpos hk hnext hboth
    obtain ⟨⟨j, J, j', hJ, hext, hj', hflow⟩, out, hout, hlive⟩ := hboth
    have hc : I.code ≠ .call := by simp [hden]
    have hstep : FlowStep R p (pc, I.operand k) (pc', I.dst) := by
      refine .carry hI hnext ?_ ?_
      · simp only [carriers, callOf_eq_none hc, hden, valueOperands, if_true, Instr.densityArgs,
          if_neg (not_lt.2 harity)]
        rw [if_neg (by decide)]
        exact List.mem_map.2 ⟨k, List.mem_range.2 hk, rfl⟩
      · rw [defines_of_ne_call hc]
        simp [Instr.outputLen, hden, Code.has, Code.flags]
    exact hno out hout ⟨j, J, j', hJ, hext, hj', (hflow.tail hstep).trans hlive⟩
  · rintro hplain out hout ⟨j, J, j', hJ, hext, hj', hflow⟩
    rcases needed_or_density h hout hflow with
      hneeded | ⟨pc, I, pc', k, hI, hden, harity, hpos, hk, hnext, hto, hlive⟩
    · have hdef : J.dst ∈ p.defines J := by
        rw [defines_of_ne_call (by simp [hext])]
        simp [Instr.outputLen, hext, Code.has, Code.flags]
      exact (hneeded.step h hJ hj' hdef).1 hext
    · exact hplain pc I pc' k hI hden harity hpos hk hnext ⟨⟨j, J, j', hJ, hext, hj', hto⟩, hlive⟩

/-! ## Runs -/

variable [Field V] {M : StanMath V E S}

omit [Field V] in
/-- A control path goes from each of its positions to the next one, and from the last to its end. -/
lemma controlPath_next {vs : List ℕ} {pc : ℕ} (h : p.ControlPath vs pc) {pre post : List ℕ} {v : ℕ}
    (hvs : vs = pre ++ v :: post) :
    ∃ I, p.code[v]? = some I ∧ post.headD pc ∈ I.successors v := by
  induction h generalizing post with
  | start => exact absurd hvs (by simp)
  | @step vs pc pc' I hpath hI hnext ih =>
    rcases List.eq_nil_or_concat post with rfl | ⟨post, w, rfl⟩
    · obtain ⟨rfl, h⟩ := List.append_inj' hvs rfl
      obtain rfl : pc = v := by simpa using h
      exact ⟨I, hI, hnext⟩
    · rw [List.concat_eq_append, ← List.cons_append, ← List.append_assoc] at hvs
      obtain ⟨hpre, hw⟩ := List.append_inj' hvs rfl
      obtain rfl : pc = w := by simpa using hw
      obtain ⟨J, hJ, hmem⟩ := ih hpre
      refine ⟨J, hJ, ?_⟩
      cases post with
      | nil => simpa using hmem
      | cons u post => simpa using hmem

/-- A run that does not fail goes from each visited instruction to the next one, and from the last to
the end of the program. -/
lemma next_of_run (hacc : p.accepts R = true) {s t : File V S} {vs : List (ℕ × File V S)} {nx : ℕ}
    (hrun : (p.machine M).sweep 0 p.code 0 s = (vs, .ok (nx, t))) {pre post : List (ℕ × File V S)}
    {v : ℕ × File V S} (hvs : vs = pre ++ v :: post) {I : Instr} (hI : p.code[v.1]? = some I) :
    (post.map Prod.fst).headD p.code.length ∈ I.successors v.1 := by
  obtain ⟨pc, hpc, hpath⟩ := controlPath_of_sweep (forward_of_accepts hacc M) hrun
  have hsplit : vs.map Prod.fst = pre.map Prod.fst ++ v.1 :: post.map Prod.fst := by simp [hvs]
  obtain ⟨J, hJ, hnext⟩ := controlPath_next hpath hsplit
  obtain rfl := Option.some.inj (hI.symm.trans hJ)
  cases hpost : post with
  | nil =>
    rw [hpost] at hnext
    have hle := (successors_le hacc hI hnext).2
    have hlen : pc = p.code.length := le_antisymm hle hpc
    rw [← hlen]
    exact hnext
  | cons u post =>
    rw [hpost] at hnext
    exact hnext

/-- Along a run only the registers whose values reach a live-out have an adjoint. -/
lemma reachesLiveOut_of_pathAdjoint (hacc : p.accepts R = true) (hR : M.toRegistry = R)
    (hM : M.HonestKernels) {s t : File V S} {vs : List (ℕ × File V S)} {nx : ℕ}
    (hrun : (p.machine M).sweep 0 p.code 0 s = (vs, .ok (nx, t))) (seeds : List V)
    (post pre : List (ℕ × File V S)) (hvs : vs = pre ++ post) {r : ℕ}
    (hr : p.pathAdjoint M post (p.seedRegs seeds) r ≠ 0) :
    ReachesLiveOut R p ((post.map Prod.fst).headD p.code.length, r) := by
  induction post generalizing pre r with
  | nil =>
    obtain ⟨e, he, rfl, -⟩ := gather_ne_zero hr
    exact ⟨e.1, (List.of_mem_zip he).1, .refl⟩
  | cons v post ih =>
    obtain ⟨-, hexec⟩ := Branching.sweep_visits hrun
    obtain ⟨-, I, s', hI, hex⟩ := hexec v (by simp [hvs])
    rw [Nat.sub_zero] at hI
    have hsplit : vs = (pre ++ [v]) ++ post := by simp [hvs]
    have hnext := next_of_run hacc hrun hvs hI
    have hpath : p.pathAdjoint M (v :: post) (p.seedRegs seeds) =
        p.pullback M I v.2.reg s'.reg (p.pathAdjoint M post (p.seedRegs seeds)) := by
      simp only [pathAdjoint, List.foldr_cons, hI, show p.exec M I v.2 = .ok s' from hex]
    rw [hpath] at hr
    rcases eq_or_ne (gather (p.pulled M I v.2.reg s'.reg (p.pathAdjoint M post (p.seedRegs seeds))) r)
      0 with hz | hne
    · -- The adjoint was there behind the instruction.
      rw [pullback, hz, add_zero] at hr
      by_cases hw : r ∈ p.writes I
      · simp [hw] at hr
      · rw [if_neg hw] at hr
        obtain ⟨out, hout, hflow⟩ := ih _ hsplit hr
        exact ⟨out, hout, hflow.head (.keep hI hnext hw)⟩
    · -- The instruction contributed to it.
      obtain ⟨e, he, rfl, he0⟩ := gather_ne_zero hne
      obtain ⟨hcar, w, hw, hw0⟩ :=
        carries_of_pulled (checked_of_accepts hacc hI) hR hM hex he he0
      obtain ⟨out, hout, hflow⟩ := ih _ hsplit hw0
      exact ⟨out, hout, hflow.head (.carry hI hnext hcar hw)⟩

/-- The generated backward, which passes nothing on at an `EXTREMA_RANGE`, skips no derivative of a
replay: at every extremum a run visits, whatever the seeds of the live-outs, the contributions to the
operands are zero. -/
def SkipsNothing (M : StanMath V E S) (p : IslandProg V) : Prop :=
  ∀ s vs t, p.Runs M s vs (.ok t) → ∀ (seeds : List V) (pre : List (ℕ × File V S)) v post I s',
    vs = pre ++ v :: post → p.code[v.1]? = some I → I.code = .extremaRange →
      p.exec M I v.2 = .ok s' →
        ∀ e ∈ p.pulled M I v.2.reg s'.reg (p.pathAdjoint M post (p.seedRegs seeds)), e.2 = 0

/-- Where no extremum reaches a live-out, the backward skips nothing. -/
lemma skipsNothing_of_noExtremumReaches (hacc : p.accepts R = true) (hR : M.toRegistry = R)
    (hM : M.HonestKernels) (h : NoExtremumReaches R p) : SkipsNothing M p := by
  intro s vs t hruns seeds pre v post I s' hvs hI hext hex e he
  obtain ⟨nx, hrun⟩ := (runs_ok_iff (forward_of_accepts hacc M)).1 hruns
  by_contra he0
  obtain ⟨-, w, hw, hw0⟩ := carries_of_pulled (checked_of_accepts hacc hI) hR hM hex he he0
  have hdst : w = I.dst := by
    rw [defines_of_ne_call (by simp [hext])] at hw
    simp only [Span.mem_regs, Instr.outputLen, hext, Code.has, Code.flags] at hw
    simp at hw
    omega
  subst hdst
  obtain ⟨out, hout, hflow⟩ := reachesLiveOut_of_pathAdjoint hacc hR hM hrun seeds post (pre ++ [v])
    (by simp [hvs]) hw0
  exact h out hout ⟨v.1, I, _, hI, hext, next_of_run hacc hrun hvs hI, hflow⟩

/-- The refusal of extrema is sound exactly for the programs in which no extremum reaches a live-out
through the second or third argument of a density. -/
theorem genAdjoint_extrema_iff {keep : Bool} (hacc : (p.genAdjoint R keep).1 = true) :
    (NoExtremumReaches R p ∧
      ∀ M : StanMath V E S, M.toRegistry = R → M.HonestKernels → SkipsNothing M p) ↔
    DensityArgsPlain R p := by
  have haccepts : p.accepts R = true := by
    unfold genAdjoint at hacc
    cases hdiff : p.differentiate R keep with
    | none => simp [hdiff] at hacc
    | some q =>
      obtain ⟨es, hd, -⟩ := differentiate_spec hdiff
      exact hd.accepts
  rw [← noExtremumReaches_iff haccepts]
  exact ⟨fun h => h.1, fun h => ⟨h, fun M hR hM => skipsNothing_of_noExtremumReaches haccepts hR hM h⟩⟩

/-! ## A maximum in a guard and a maximum in a density -/

/-- A maximum that only guards a branch, and a density of the live-ins:
`y = density(x0, x1); if (max(x0, x1)) y = x0`. -/
def guardingMaximum : IslandProg ℚ where
  code := [{ code := .extremaRange, dst := 2, a := 0, b := 1, c := 2, len := 2 },
    { code := .density, dst := 3, a := 0, b := 1 },
    { code := .jz, a := 2, dst := 4 },
    { code := .mov, dst := 3, a := 0 }]
  nRegs := 4
  outRegs := [3]
  ins := [{ reg := 0, len := 2 }]

lemma guardingMaximum_accepted : (guardingMaximum.genAdjoint ratMath.toRegistry true).1 = true := by
  decide +kernel

lemma guardingMaximum_densityArgsPlain : DensityArgsPlain ratMath.toRegistry guardingMaximum := by
  rintro pc I pc' k hI hden - hpos hk - ⟨⟨j, J, j', hJ, hext, hj', hflow⟩, -⟩
  obtain rfl : k = 1 := by
    have : k < 2 := hk
    omega
  have hpc := (List.getElem?_eq_some_iff.1 hI).1
  have hj := (List.getElem?_eq_some_iff.1 hJ).1
  change pc < 4 at hpc
  change j < 4 at hj
  interval_cases pc <;> obtain rfl := Option.some.inj hI <;> simp at hden
  interval_cases j <;> obtain rfl := Option.some.inj hJ <;> simp at hext
  -- The maximum is behind the density's second argument already.
  obtain rfl : j' = 1 := by simpa [Instr.successors] using hj'
  have hacc : guardingMaximum.accepts ratMath.toRegistry = true := by decide +kernel
  rcases hflow.lt hacc with h | h
  · exact absurd (Prod.ext_iff.1 h).2 (by decide)
  · exact absurd h (lt_irrefl 1)

/-- `gen_adjoint` accepts the maximum in the guard, and skips nothing. -/
theorem guardingMaximum_extrema : (guardingMaximum.genAdjoint ratMath.toRegistry true).1 = true ∧
    NoExtremumReaches ratMath.toRegistry guardingMaximum ∧
      ∀ M : StanMath ℚ String Unit, M.toRegistry = ratMath.toRegistry → M.HonestKernels →
        SkipsNothing M guardingMaximum :=
  ⟨guardingMaximum_accepted,
    (genAdjoint_extrema_iff guardingMaximum_accepted).2 guardingMaximum_densityArgsPlain⟩

/-- A density whose second argument is the maximum of two live-ins. -/
def densityOfMaximum : IslandProg ℚ where
  code := [{ code := .extremaRange, dst := 2, a := 0, b := 1, c := 2, len := 2 },
    { code := .density, dst := 3, a := 0, b := 2 }]
  nRegs := 4
  outRegs := [3]
  ins := [{ reg := 0, len := 2 }]

/-- `gen_adjoint` accepts the maximum in the density, where it reaches the live-out, and the backward
loses the derivative through it. -/
theorem densityOfMaximum_extrema :
    (∃ q, densityOfMaximum.genAdjoint ratMath.toRegistry true = (true, q) ∧
      ¬Derives ratMath densityOfMaximum q (· ∈ densityOfMaximum.activeIns)) ∧
    ¬NoExtremumReaches ratMath.toRegistry densityOfMaximum ∧
    ¬SkipsNothing ratMath densityOfMaximum := by
  refine ⟨⟨_, Prod.ext (by decide +kernel) rfl, fun h => ?_⟩, fun h => ?_, fun h => ?_⟩
  · -- At `x = (3, 2)` the partial with respect to the first live-in is 6, but its cell receives 3.
    have := h.adjoint ⟨fun r => 3 - r, ()⟩ _ _ _ _ ⟨2, rfl⟩ ⟨2, rfl⟩ [1] 0 (by decide) (by decide)
    revert this
    decide +kernel
  · refine h 3 (by decide) ⟨0, _, 1, rfl, rfl, by decide, ?_⟩
    exact .single (.carry rfl (by decide) (by decide) (by decide))
  · have := h ⟨fun r => 3 - r, ()⟩ _ _ ⟨2, rfl⟩ [1] [] _ _ _ _ rfl rfl rfl rfl
    revert this
    decide +kernel

end IslandProg

end Stanli
