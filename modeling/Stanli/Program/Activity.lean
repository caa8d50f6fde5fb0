import Stanli.Program.Reverse

/-!
# What the backward leaves out

The backward drops the partials of a density for inactive arguments and those of an extremum.  An
active register is not downstream of an inactive one, and where the search for differentiated extrema
follows every value operand no extremum has an adjoint; so the adjoints of active registers are exact
(`kept_eq_path`).
-/

namespace Stanli

open Program

namespace IslandProg

variable {V E S : Type*} [Field V] {R : Registry} {p : IslandProg V} {keep : Bool}
  {es : List Emitted} {M : StanMath V E S} {k : ℕ} {I : Instr}

/-! ## Activity -/

omit [Field V] in
lemma subset_activeStep (I : Instr) (active : List ℕ) {r : ℕ} (h : r ∈ active) :
    r ∈ p.activeStep R I active := by
  unfold activeStep
  dsimp only
  repeat' split
  all_goals first | exact h | exact List.mem_append_right _ h

omit [Field V] in
lemma activeAt_succ (hI : p.code[k]? = some I) :
    p.activeAt R (k + 1) = p.activeStep R I (p.activeAt R k) := by
  obtain ⟨hlt, rfl⟩ := List.getElem?_eq_some_iff.1 hI
  rw [activeAt, activeAt, List.take_succ_eq_append_getElem hlt, List.foldl_append]
  rfl

omit [Field V] in
/-- The active registers grow. -/
lemma activeAt_mono {j : ℕ} (hkj : k ≤ j) {r : ℕ} (h : r ∈ p.activeAt R k) : r ∈ p.activeAt R j := by
  induction j, hkj using Nat.le_induction with
  | base => exact h
  | succ j _ ih =>
    cases hI : p.code[j]? with
    | none =>
      have hlen := List.getElem?_eq_none_iff.1 hI
      rw [activeAt, List.take_of_length_le hlen] at ih
      rwa [activeAt, List.take_of_length_le (by omega)]
    | some I =>
      rw [activeAt_succ hI]
      exact subset_activeStep I _ ih

omit [Field V] in
lemma noInputs_of_reads {j : ℕ} (h : I.reads j = true) : I.rule.has .noInputs = false := by
  match j with
  | 0 => simpa [Instr.reads] using h
  | 1 =>
    change I.rule.has .readB = true at h
    revert h
    cases I.rule <;> simp [Code.has, Code.flags]
  | _ + 2 =>
    change I.rule.has .readC = true at h
    revert h
    cases I.rule <;> simp [Code.has, Code.flags]

/-- An instruction that contributes to an active register writes active registers. -/
lemma active_of_pulled (hch : p.Checked R k I) (hR : M.toRegistry = R) {s s' : File V S}
    (hex : p.exec M I s = .ok s') {seed : ℕ → V} {e : ℕ × V}
    (he : e ∈ p.pulled M I s.reg s'.reg seed) {active : List ℕ} (hact : e.1 ∈ active) {w : ℕ}
    (hw : w ∈ p.writes I) : w ∈ p.activeStep R I active := by
  have hspan : ∀ {sp : Span}, e.1 ∈ sp.regs → sp.regs.any (fun r => decide (r ∈ active)) = true :=
    fun hr => List.any_eq_true.2 ⟨_, hr, by simpa using hact⟩
  unfold pulled at he
  split at he
  · rename_i hc
    obtain ⟨call, hget, -, hback, -⟩ := hch.call hc
    obtain ⟨f, hf⟩ := Option.isSome_iff_exists.1 hback
    simp only [hget, hf] at he
    obtain ⟨sp, hsp, hr⟩ := mem_pulls he
    have hof : p.callOf I = some call := by rw [callOf, if_pos hc, hget]
    simp only [activeStep, hof]
    rw [if_pos (List.any_eq_true.2 ⟨sp, hsp, hspan hr⟩)]
    exact List.mem_append_left _ hw
  · rename_i hc
    obtain ⟨d, hd, rfl⟩ := List.mem_map.1 he
    have hop := (jacobian_spec hch hR hex hd).2
    simp only [activeStep, callOf_eq_none hc]
    unfold valueOperands at hop
    split at hop
    · rename_i hden
      have hno : I.rule.has .noInputs = false := by simp [Instr.rule, hden, Code.has, Code.flags]
      rw [hno, if_neg (by simp), if_pos hden,
        if_pos (List.any_eq_true.2 ⟨_, hop, by simpa using hact⟩)]
      exact List.mem_append_left _ hw
    · rename_i hden
      have hran : I.isRangedDensity R = false := by simp [Instr.isRangedDensity, hden]
      unfold sweptOperands at hop
      simp only [hran, Bool.false_eq_true, if_false] at hop
      split at hop
      · rename_i hdyn
        have hno : I.rule.has .noInputs = false := by simp [Instr.rule, hdyn, Code.has, Code.flags]
        rw [hno, if_neg (by simp), if_neg hden, if_pos hdyn, if_pos (hspan hop)]
        exact List.mem_append_left _ hw
      · rename_i hdyn
        obtain ⟨j, hj, hr⟩ := List.mem_flatMap.1 hop
        split at hr
        · rename_i hread
          rw [noInputs_of_reads hread, if_neg (by simp), if_neg hden, if_neg hdyn,
            if_pos (List.any_eq_true.2 ⟨j, hj, by rw [hread, Bool.true_and]; exact hspan hr⟩)]
          exact List.mem_append_left _ hw
        · simp at hr

/-! ## Extrema -/

omit [Field V] in
/-- The search for differentiated extrema, from the end back to position `k`. -/
def neededFrom (p : IslandProg V) (operands : Instr → List ℕ) (k : ℕ) : Option (List ℕ) :=
  (p.code.drop k).foldr (fun I needed => needed.bind (p.neededStep operands I)) (some p.outRegs)

omit [Field V] in
lemma neededFrom_step {operands : Instr → List ℕ} (hI : p.code[k]? = some I) :
    p.neededFrom operands k = (p.neededFrom operands (k + 1)).bind (p.neededStep operands I) := by
  obtain ⟨hlt, rfl⟩ := List.getElem?_eq_some_iff.1 hI
  rw [neededFrom, List.drop_eq_getElem_cons hlt]
  rfl

omit [Field V] in
lemma subset_neededStep {operands : Instr → List ℕ} {needed needed' : List ℕ}
    (h : p.neededStep operands I needed = some needed') {r : ℕ} (hr : r ∈ needed) : r ∈ needed' := by
  unfold neededStep at h
  repeat' split at h
  all_goals cases h
  all_goals first | exact hr | exact List.mem_append_right _ hr

omit [Field V] in
/-- The search that succeeds succeeds at every position, and what it needs grows backwards. -/
lemma neededFrom_mono {operands : Instr → List ℕ} {j : ℕ} (hkj : k ≤ j) {needed : List ℕ}
    (h : p.neededFrom operands k = some needed) :
    ∃ needed', p.neededFrom operands j = some needed' ∧ ∀ r ∈ needed', r ∈ needed := by
  induction j, hkj using Nat.le_induction with
  | base => exact ⟨needed, h, fun _ hr => hr⟩
  | succ j _ ih =>
    obtain ⟨needed', h', hsub⟩ := ih
    cases hI : p.code[j]? with
    | none =>
      have hlen := List.getElem?_eq_none_iff.1 hI
      refine ⟨needed', ?_, hsub⟩
      rw [neededFrom, List.drop_eq_nil_of_le hlen] at h'
      rw [neededFrom, List.drop_eq_nil_of_le (by omega)]
      exact h'
    | some I =>
      rw [neededFrom_step hI, Option.bind_eq_some_iff] at h'
      obtain ⟨needed'', h'', hstep⟩ := h'
      exact ⟨needed'', h'', fun r hr => hsub r (subset_neededStep hstep hr)⟩

/-- The adjoint of a register is zero unless the search needs it or nothing writes it. -/
def ZeroOutside (p : IslandProg V) (needed : List ℕ) (seed : ℕ → V) : Prop :=
  ∀ r, seed r ≠ 0 → r ∈ needed ∨ ∀ J ∈ p.code, r ∉ p.writes J

lemma gather_ne_zero {l : List (ℕ × V)} {c : ℕ} (h : gather l c ≠ 0) :
    ∃ e ∈ l, e.1 = c ∧ e.2 ≠ 0 := by
  by_contra hcon
  push Not at hcon
  refine h ?_
  induction l with
  | nil => rfl
  | cons e l ih =>
    have htail := fun e he => hcon e (List.mem_cons_of_mem _ he)
    rw [gather_cons]
    rcases eq_or_ne (gather l c) 0 with hz | hne
    · rw [hz, add_zero]
      split
      · exact hcon e (List.mem_cons_self ..) ‹_›
      · rfl
    · exact absurd (ih hne htail) hne

/-- The registers from which an instruction carries a derivative into what it computes: every operand
its derivative rule uses, all inputs of a `CALL`, none of a comparison or an integer operation. -/
def carriers (R : Registry) (p : IslandProg V) (I : Instr) : List ℕ :=
  match p.callOf I with
  | some call => call.ins.flatMap Span.regs
  | none => if I.code.isDiscrete then [] else valueOperands R I

/-- A contribution that is not zero goes to a register from which the instruction carries a
derivative, and comes from a register it computed. -/
lemma carries_of_pulled (hch : p.Checked R k I) (hR : M.toRegistry = R) (hM : M.HonestKernels)
    {s s' : File V S} (hex : p.exec M I s = .ok s') {seed : ℕ → V} {e : ℕ × V}
    (he : e ∈ p.pulled M I s.reg s'.reg seed) (hne : e.2 ≠ 0) :
    e.1 ∈ p.carriers R I ∧ ∃ w ∈ p.defines I, seed w ≠ 0 := by
  unfold pulled at he
  split at he
  · rename_i hc
    obtain ⟨call, hget, -, hback, -⟩ := hch.call hc
    obtain ⟨f, hf⟩ := Option.isSome_iff_exists.1 hback
    have hof : p.callOf I = some call := by rw [callOf, if_pos hc, hget]
    have hdef : p.defines I = call.out.regs := by simp only [defines, if_pos hc, hget]
    simp only [hget, hf] at he
    refine ⟨?_, ?_⟩
    · obtain ⟨sp, hsp, hr⟩ := mem_pulls he
      simp only [carriers, hof]
      exact List.mem_flatMap.2 ⟨sp, hsp, hr⟩
    · -- A kernel adds nothing when its output has no adjoint.
      by_contra hno
      push Not at hno
      have hzero : ∀ t ∈ call.out.read seed, t = 0 := by
        intro t ht
        obtain ⟨w, hw, rfl⟩ := List.mem_map.1 ht
        exact hno w (hdef ▸ hw)
      have hamounts := hM.zero f call.shape (call.ins.map fun i => i.read s.reg)
        (call.out.read s'.reg) (call.scratch.read s'.reg) _ hzero
      refine hne ?_
      unfold Call.pulls at he
      obtain ⟨j, -, he⟩ := List.mem_flatMap.1 he
      split at he
      · obtain ⟨i, -, rfl⟩ := List.mem_map.1 he
        dsimp only
        rw [List.getD_eq_getElem?_getD, List.getD_eq_getElem?_getD]
        cases hj : (M.backward f call.shape (call.ins.map fun i => i.read s.reg)
            (call.out.read s'.reg) (call.scratch.read s'.reg) (call.out.read seed))[j]? with
        | none => rfl
        | some amounts =>
          dsimp only [Option.getD_some]
          cases hi : amounts[i]? with
          | none => rfl
          | some t => exact hamounts amounts (List.mem_of_getElem? hj) t (List.mem_of_getElem? hi)
      · simp at he
  · rename_i hc
    obtain ⟨d, hd, rfl⟩ := List.mem_map.1 he
    obtain ⟨hlt, hop⟩ := jacobian_spec hch hR hex hd
    have hdis : I.code.isDiscrete = false := by
      by_contra hdis
      rw [Bool.not_eq_false] at hdis
      revert hd
      cases hcode : I.code <;> rw [hcode] at hdis <;> first
        | exact absurd hdis (by decide)
        | simp [Instr.jacobian, hcode, Code.elementwise]
    refine ⟨?_, I.dst + d.1, ?_, left_ne_zero_of_mul hne⟩
    · simp only [carriers, callOf_eq_none hc, hdis]
      exact hop
    · rw [defines_of_ne_call hc]
      exact Span.mem_regs.2 ⟨Nat.le_add_right .., Nat.add_lt_add_left hlt _⟩

omit [Field V] in
/-- What a step of the search that meets a needed result needs in front of the instruction. -/
lemma neededStep_of_needed (hch : p.Checked R k I) {operands : Instr → List ℕ}
    {needed needed' : List ℕ} (hstep : p.neededStep operands I needed = some needed') {w : ℕ}
    (hw : w ∈ p.defines I) (hneeded : w ∈ needed) :
    (I.code = .call → p.carriers R I ⊆ needed') ∧
      (I.code ≠ .call → I.code.isDiscrete = false → I.code ≠ .extremaRange ∧
        operands I ⊆ needed') := by
  unfold neededStep at hstep
  by_cases hc : I.code = .call
  · obtain ⟨call, hget, -⟩ := hch.call hc
    have hof : p.callOf I = some call := by rw [callOf, if_pos hc, hget]
    have hdef : p.defines I = call.out.regs := by simp only [defines, if_pos hc, hget]
    have hany : call.out.regs.any (fun r => decide (r ∈ needed)) = true :=
      List.any_eq_true.2 ⟨w, hdef ▸ hw, by simpa using hneeded⟩
    simp only [hof, hany, if_true] at hstep
    obtain rfl := Option.some.inj hstep
    refine ⟨fun _ r hr => ?_, fun h => absurd hc h⟩
    simp only [carriers, hof] at hr
    exact List.mem_append_left _ hr
  · rw [defines_of_ne_call hc] at hw
    have hany : (Span.mk I.dst I.outputLen).regs.any (fun r => decide (r ∈ needed)) = true :=
      List.any_eq_true.2 ⟨w, hw, by simpa using hneeded⟩
    simp only [callOf_eq_none hc, hany, Bool.not_true, Bool.false_eq_true, if_false] at hstep
    refine ⟨fun h => absurd h hc, fun _ hdis => ?_⟩
    simp only [hdis, Bool.false_eq_true, if_false] at hstep
    split at hstep
    · simp at hstep
    · rename_i hext
      obtain rfl := Option.some.inj hstep
      exact ⟨hext, fun r hr => List.mem_append_left _ hr⟩

/-- A contribution that is not zero goes to what the search needs in front of the instruction. -/
lemma needed_of_pulled (hch : p.Checked R k I) (hI : p.code[k]? = some I) (hR : M.toRegistry = R)
    (hM : M.HonestKernels) {s s' : File V S} (hex : p.exec M I s = .ok s') {needed needed' : List ℕ}
    (hstep : p.neededStep (valueOperands R) I needed = some needed') {seed : ℕ → V}
    (hseed : p.ZeroOutside needed seed) {e : ℕ × V}
    (he : e ∈ p.pulled M I s.reg s'.reg seed) (hne : e.2 ≠ 0) :
    e.1 ∈ needed' ∧ I.code ≠ .extremaRange := by
  obtain ⟨hcar, w, hw, hw0⟩ := carries_of_pulled hch hR hM hex he hne
  -- What the instruction wrote and has an adjoint is needed.
  have hneeded : w ∈ needed :=
    (hseed w hw0).resolve_right fun h => h I (List.mem_of_getElem? hI) (mem_writes_of_defines hw)
  obtain ⟨hcall, hplain⟩ := neededStep_of_needed (R := R) hch hstep hw hneeded
  by_cases hc : I.code = .call
  · exact ⟨hcall hc hcar, by simp [hc]⟩
  · simp only [carriers, callOf_eq_none hc] at hcar
    split at hcar
    · simp at hcar
    · rename_i hdis
      obtain ⟨hext, hsub⟩ := hplain hc (by simpa using hdis)
      exact ⟨hsub hcar, hext⟩

/-- One step of the search, for the adjoints along a path. -/
lemma zeroOutside_pullback (hch : p.Checked R k I) (hI : p.code[k]? = some I)
    (hR : M.toRegistry = R) (hM : M.HonestKernels) {s s' : File V S} (hex : p.exec M I s = .ok s')
    {needed needed' : List ℕ} (hstep : p.neededStep (valueOperands R) I needed = some needed')
    {seed : ℕ → V} (hseed : p.ZeroOutside needed seed) :
    p.ZeroOutside needed' (p.pullback M I s.reg s'.reg seed) := by
  intro r hr
  rcases eq_or_ne (gather (p.pulled M I s.reg s'.reg seed) r) 0 with hz | hne
  · rw [pullback, hz, add_zero] at hr
    have hr0 : seed r ≠ 0 := by
      intro h0
      rw [h0] at hr
      exact hr (by split <;> rfl)
    exact (hseed r hr0).imp_left (subset_neededStep hstep)
  · obtain ⟨e, he, rfl, he0⟩ := gather_ne_zero hne
    exact Or.inl (needed_of_pulled hch hI hR hM hex hstep hseed he he0).1

/-! ## The adjoints of active registers -/

/-- One instruction: what it contributes to an active register is kept. -/
lemma keptPullback_eq (hch : p.Checked R k I) (hI : p.code[k]? = some I) (hR : M.toRegistry = R)
    (hM : M.HonestKernels) {s s' : File V S} (hex : p.exec M I s = .ok s') {needed needed' : List ℕ}
    (hstep : p.neededStep (valueOperands R) I needed = some needed') {seed seed' : ℕ → V}
    (hseed : p.ZeroOutside needed seed')
    (heq : ∀ r ∈ p.activeAt R (k + 1), seed r = seed' r) {r : ℕ} (hr : r ∈ p.activeAt R k) :
    p.keptPullback R M k I s.reg s'.reg seed r = p.pullback M I s.reg s'.reg seed' r := by
  rw [keptPullback, pullback, heq r (activeAt_mono (Nat.le_succ k) hr)]
  congr 1
  -- When an active register receives anything, the instruction wrote active registers.
  have hpulled : (∃ e ∈ p.pulled M I s.reg s'.reg seed, e.1 = r) ∨
      (∃ e ∈ p.pulled M I s.reg s'.reg seed', e.1 = r) →
      p.pulled M I s.reg s'.reg seed = p.pulled M I s.reg s'.reg seed' := by
    intro h
    refine pulled_congr hch hR hex fun w hw => heq w ?_
    rw [activeAt_succ hI]
    rcases h with ⟨e, he, rfl⟩ | ⟨e, he, rfl⟩
    · exact active_of_pulled hch hR hex he hr (mem_writes_of_defines hw)
    · exact active_of_pulled hch hR hex he hr (mem_writes_of_defines hw)
  have hgather : gather (p.pulled M I s.reg s'.reg seed) r =
      gather (p.pulled M I s.reg s'.reg seed') r := by
    by_cases h : (∃ e ∈ p.pulled M I s.reg s'.reg seed, e.1 = r) ∨
        (∃ e ∈ p.pulled M I s.reg s'.reg seed', e.1 = r)
    · rw [hpulled h]
    · rw [not_or] at h
      push Not at h
      rw [gather_eq_zero h.1, gather_eq_zero h.2]
  unfold keptPulls
  split
  · rename_i hext
    symm
    by_contra hne
    obtain ⟨e, he, -, he0⟩ := gather_ne_zero hne
    exact (needed_of_pulled hch hI hR hM hex hstep hseed he he0).2 hext
  · split
    · rw [← hgather]
      exact gather_filter_of_mem (P := fun r => decide (r ∈ p.activeAt R k)) (by simpa using hr) _
    · exact hgather

/-- Where no differentiated extremum reaches a live-out, the backward is exact for the registers that
are active in front of the path. -/
theorem kept_eq_path (hd : Differentiated R p keep es) (hR : M.toRegistry = R)
    (hM : M.HonestKernels) (hneed : (p.neededSweep (valueOperands R)).isSome = true) {s t : File V S}
    {vs : List (ℕ × File V S)} {nx : ℕ}
    (hrun : (p.machine M).sweep 0 p.code 0 s = (vs, .ok (nx, t))) {seed : ℕ → V}
    (hseed : p.ZeroOutside p.outRegs seed) {r : ℕ} (hr : r ∈ p.activeIns) :
    p.keptAdjoint R M vs seed r = p.pathAdjoint M vs seed r := by
  have key : ∀ (post pre : List (ℕ × File V S)) (k : ℕ), vs = pre ++ post → (∀ v ∈ post, k ≤ v.1) →
      ∀ needed, p.neededFrom (valueOperands R) k = some needed →
        p.ZeroOutside needed (p.pathAdjoint M post seed) ∧ ∀ r ∈ p.activeAt R k,
          p.keptAdjoint R M post seed r = p.pathAdjoint M post seed r := by
    intro post
    induction post with
    | nil =>
      intro pre k _ _ needed hneed
      refine ⟨fun r hr => (hseed r hr).imp_left fun hout => ?_, fun r _ => rfl⟩
      obtain ⟨needed', hlast, hsub⟩ :=
        neededFrom_mono (show k ≤ k + p.code.length by omega) hneed
      rw [neededFrom, List.drop_eq_nil_of_le (by omega)] at hlast
      obtain rfl := Option.some.inj hlast
      exact hsub r hout
    | cons v post ih =>
      intro pre k hvs hk needed hneed
      obtain ⟨-, -, I, s', hI, hex⟩ := visits_of_run hd hrun hvs
      have hch := hd.checked hI
      obtain ⟨needed₁, h₁, hsub₁⟩ := neededFrom_mono (hk v (List.mem_cons_self ..)) hneed
      rw [neededFrom_step hI, Option.bind_eq_some_iff] at h₁
      obtain ⟨needed₂, h₂, hstep⟩ := h₁
      have hsplit : vs = (pre ++ [v]) ++ post := by simp [hvs]
      have hpost : ∀ u ∈ post, v.1 + 1 ≤ u.1 := by
        intro u hu
        obtain ⟨hsorted, -⟩ := Branching.sweep_visits hrun
        rw [hvs, List.map_append, List.map_cons, List.pairwise_append, List.pairwise_cons] at hsorted
        exact hsorted.2.1.1 u.1 (List.mem_map_of_mem hu)
      obtain ⟨hzero, heq⟩ := ih (pre ++ [v]) (v.1 + 1) hsplit hpost needed₂ h₂
      have hpath : p.pathAdjoint M (v :: post) seed =
          p.pullback M I v.2.reg s'.reg (p.pathAdjoint M post seed) := by
        simp only [pathAdjoint, List.foldr_cons, hI, hex]
      have hkept : p.keptAdjoint R M (v :: post) seed =
          p.keptPullback R M v.1 I v.2.reg s'.reg (p.keptAdjoint R M post seed) := by
        simp only [keptAdjoint, List.foldr_cons, hI, hex]
      rw [hpath, hkept]
      refine ⟨fun r hr => ?_, fun r hr => ?_⟩
      · exact (zeroOutside_pullback hch hI hR hM hex hstep hzero r hr).imp_left (hsub₁ r)
      · exact keptPullback_eq hch hI hR hM hex hstep hzero heq
          (activeAt_mono (hk v (List.mem_cons_self ..)) hr)
  obtain ⟨needed, hneeded⟩ := Option.isSome_iff_exists.1 hneed
  exact (key vs [] 0 rfl (fun _ _ => Nat.zero_le _) needed (by
    rw [neededFrom, List.drop_zero]
    exact hneeded)).2 r hr

end IslandProg

end Stanli
