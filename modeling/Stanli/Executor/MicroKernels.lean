import Stanli.Executor.ReversePlanSound

/-!
# Kernels with micro-ops

Two kernels whose backward has a micro form: the element read (`index_bwd`, `index_micro` of
`elementwise.cpp`) and the scalar mixtures (`mix_bwd`, `mix_micro` of `mixture.cpp`).  Both keep the
contract on every graph.  A run of cached mixtures that is too long for its positions shows where the
plan stops being right.
-/

namespace Stanli

variable {U V X : Type*}

/-! ## The kernels -/

section Kernels

variable [Add V] [Mul V] [Zero V]

/-- `in_adj[k]`. -/
def KernelCtx.adj (c : KernelCtx U) (k : ℕ) : Ptr × ℕ := c.inAdj.getD k (.null, 0)

/-- `idata[k]`. -/
def KernelCtx.imm (c : KernelCtx U) (k : ℕ) : ℤ := c.idata.getD k 0

/-- `index_bwd`. -/
def indexBwd : BackwardFn U V X := fun c outAdj _ st =>
  if (c.adj 0).1 ≠ .null then st.add ((c.adj 0).1.add (c.imm 0).toNat) outAdj else st

/-- `index_micro`. -/
def indexMicro : CachedMicroFn U V := fun c =>
  if c.out.2 ≠ 1 then (false, [])
  else (true,
    if (c.adj 0).1 ≠ .null then
      [{ dst := (c.adj 0).1.add (c.imm 0).toNat, seed := c.outAdj.1, kind := .add }]
    else [])

/-- `mix_bwd` for one argument: its partials are every `nArgs`-th cell of the scratch. -/
def mixArgBwd (nArgs : ℕ) (c : KernelCtx U) (st : RevState V X) (k : ℕ) : RevState V X :=
  let term := fun (st : RevState V X) i =>
    st.mem (c.outAdj.1.add i) * st.mem (c.scratch.add (i * nArgs + k))
  if (c.adj k).1 = .null then st
  else if (c.adj k).2 = 1 ∧ 1 < c.out.2 then
    st.add (c.adj k).1 ((List.range c.out.2).reverse.foldl (fun acc i => acc + term st i) 0)
  else (List.range c.out.2).foldl (fun st i => st.add ((c.adj k).1.add i) (term st i)) st

/-- `mix_bwd`. -/
def mixBwd (nArgs : ℕ) : BackwardFn U V X := fun c _ _ st =>
  (List.range nArgs).foldl (mixArgBwd nArgs c) st

/-- The micro-op of one argument of a scalar mixture. -/
def mixArgMicro (c : KernelCtx U) (k : ℕ) : List (BwdMicro V) :=
  if (c.adj k).1 = .null then []
  else [{ dst := (c.adj k).1, seed := c.outAdj.1, a := c.scratch.add k, kind := .scaled }]

/-- `mix_micro`. -/
def mixMicro (nArgs : ℕ) : CachedMicroFn U V := fun c =>
  if c.out.2 ≠ 1 then (false, [])
  else if (List.range nArgs).any fun k => (c.adj k).1 ≠ .null ∧ (c.adj k).2 ≠ 1 then (false, [])
  else (true, (List.range nArgs).flatMap (mixArgMicro c))

/-- The table with these two kernels. -/
def microKernels (isZero : V → Bool) : ReverseKernels U V X where
  backward oc := if oc = .index then some indexBwd else if oc = .logMix then some (mixBwd 3) else none
  cachedMicro oc :=
    if oc = .index then some indexMicro else if oc = .logMix then some (mixMicro 3) else none
  isZero := isZero

end Kernels

/-! ## They keep the contract -/

@[simp] lemma Ptr.add_zero (p : Ptr) : p.add 0 = p := by
  cases p <;> rfl

section Contract

variable [Add V] [Sub V] [Mul V] [Zero V] {K : ReverseKernels U V X} {c : KernelCtx U}

/-- The micro form of an element read does what its backward does. -/
lemma indexMicro_reproduces (hlen : c.outAdj.2 = c.out.2)
    (h : (indexMicro (V := V) c).1 = true) (st : RevState V X) :
    (indexMicro c).2.foldl (fun st m => runBwdMicro K m st) st =
      callBackward indexBwd c .null st := by
  unfold indexMicro at h ⊢
  by_cases hone : c.out.2 = 1
  · rw [if_neg (by simpa using hone), callBackward, indexBwd, hlen, if_pos hone]
    by_cases hnull : (c.adj 0).1 = .null
    · simp [hnull]
    · simp [hnull, runBwdMicro]
  · simp [hone] at h

omit [Sub V] in
/-- The backward of one argument of a scalar mixture adds its partial. -/
lemma mixArgBwd_scalar {nArgs k : ℕ} (hone : c.out.2 = 1) (st : RevState V X) :
    mixArgBwd nArgs c st k = if (c.adj k).1 = .null then st
      else st.add (c.adj k).1 (st.mem c.outAdj.1 * st.mem (c.scratch.add k)) := by
  unfold mixArgBwd
  rw [hone]
  split
  · rfl
  · simp

/-- The micro form of a scalar mixture does what its backward does. -/
lemma mixMicro_reproduces {nArgs : ℕ} (h : (mixMicro (V := V) nArgs c).1 = true)
    (st : RevState V X) :
    (mixMicro nArgs c).2.foldl (fun st m => runBwdMicro K m st) st =
      callBackward (mixBwd nArgs) c .null st := by
  unfold mixMicro at h ⊢
  by_cases hone : c.out.2 = 1
  · rw [if_neg (by simpa using hone)] at h ⊢
    split at h
    · cases h
    · rename_i hany
      rw [if_neg hany, callBackward, mixBwd]
      generalize List.range nArgs = ks
      dsimp only
      clear hany h
      induction ks generalizing st with
      | nil => rfl
      | cons k ks ih =>
        rw [List.flatMap_cons, List.foldl_append, List.foldl_cons, mixArgBwd_scalar hone]
        unfold mixArgMicro at ih ⊢
        split
        · exact ih st
        · simp only [List.foldl_cons, List.foldl_nil, runBwdMicro]
          rw [if_neg (by simp)]
          exact ih _
  · simp [hone] at h

/-- The two kernels keep the contract on every graph. -/
theorem microKernels_contract (g : Graph U) (isZero : V → Bool) (B : BindEnv U) (L : Layout) :
    g.MicroContract (microKernels (X := X) isZero) B L := by
  constructor
  · intro p _ _ _ b f hb hf buffer h st
    unfold microKernels at hb hf
    dsimp only at hb hf
    split at hb
    · rename_i hoc
      rw [if_pos hoc] at hf
      obtain rfl := Option.some.inj hb
      obtain rfl := Option.some.inj hf
      exact indexMicro_reproduces rfl h st
    · rename_i hoc
      rw [if_neg hoc] at hf
      split at hb
      · rename_i hmix
        rw [if_pos hmix] at hf
        obtain rfl := Option.some.inj hb
        obtain rfl := Option.some.inj hf
        exact mixMicro_reproduces h st
      · cases hb
  · intro p _ _ f hf buffer buffer'
    unfold microKernels at hf
    dsimp only at hf
    split at hf
    · obtain rfl := Option.some.inj hf
      exact ⟨rfl, rfl⟩
    · split at hf
      · obtain rfl := Option.some.inj hf
        exact ⟨rfl, rfl⟩
      · cases hf

end Contract

/-! ## A fused plan -/

/-- Three element reads of a parameter vector that share their value, a mixture of them, and a fourth
read. -/
def readsGraph : Graph Unit where
  slots := [⟨3, true⟩, ⟨1, false⟩, ⟨1, false⟩, ⟨1, false⟩, ⟨1, false⟩, ⟨1, false⟩]
  ops := [{ opcode := .index, out := 1, ins := [0], idata := [1], primalSource := some 1 },
    { opcode := .index, out := 2, ins := [0], idata := [1], primalSource := some 1 },
    { opcode := .index, out := 3, ins := [0], idata := [1], primalSource := some 1 },
    { opcode := .logMix, out := 4, ins := [1, 2, 3] },
    { opcode := .index, out := 5, ins := [0], idata := [1], primalSource := some 1 }]
  resultSlot := some 4

/-- The kernels over the integers. -/
abbrev intKernels : ReverseKernels Unit ℤ Unit := microKernels fun x => decide (x = 0)

/-- A start of the sweep. -/
def unitState : RevState ℤ Unit := ⟨fun _ => 1, [], ()⟩

/-- The last read stays a step, the two before the mixture become a batch; the plan does what the
backwards do, also after the data were detached. -/
theorem readsGraph_fused : ∃ L, readsGraph.layout openEnv (fun _ => 0) = .ok L ∧
    let E := [7].foldl (fun E buffer' => E.detachData readsGraph openEnv L buffer')
      (readsGraph.bindReverse intKernels openEnv L 0)
    E.reverseDense intKernels unitState =
      some (readsGraph.reverseUnfused intKernels openEnv L E.buffer unitState) ∧
    E.reverseSparse intKernels unitState =
      some (readsGraph.reverseUnfused intKernels openEnv L E.buffer unitState) ∧
    ∀ profile, E.reverse intKernels profile unitState =
      some (readsGraph.reverseUnfused intKernels openEnv L E.buffer unitState) :=
  ⟨_, rfl, Graph.reverse_fused (show readsGraph.layout openEnv (fun _ => 0) = .ok _ from rfl)
    (by decide) (microKernels_contract ..) 0 (by decide) [7] unitState⟩

/-! ## A run that is too long -/

/-- A mixture of three parameters that other ops share. -/
def mixSource : Op Unit := { opcode := .logMix, out := 3, ins := [0, 1, 2], primalSource := some 3 }

/-- The same mixture as a cached op. -/
def mixCopy : Op Unit := { opcode := .logMix, out := 4, ins := [0, 1, 2], primalSource := some 3 }

/-- A mixture and `n` cached copies of it. -/
def longRunGraph (n : ℕ) : Graph Unit where
  slots := [⟨1, true⟩, ⟨1, true⟩, ⟨1, true⟩, ⟨1, false⟩, ⟨1, false⟩]
  ops := mixSource :: List.replicate n mixCopy
  resultSlot := some 3

section LongRun

variable {n : ℕ} {L : Layout}

lemma longRunGraph_primalFrom (n : ℕ) : (longRunGraph n).primalFrom 3 = none := by
  unfold Graph.primalFrom longRunGraph
  rw [List.filter_cons_of_neg (by decide), List.filter_replicate_of_neg (by decide)]
  rfl

lemma longRunGraph_primalFrom_copy (n : ℕ) : (longRunGraph (n + 1)).primalFrom 4 = some 3 := by
  unfold Graph.primalFrom longRunGraph
  rw [List.filter_cons_of_neg (by decide), List.filter_replicate_of_pos (by decide),
    List.getLast?_replicate]
  rfl

/-- The copies find their source. -/
lemma longRunGraph_scratch (g : Graph Unit) (n : ℕ) (st : ScratchLayout) {j : ℕ}
    (h : st.source 3 = some j) :
    ∃ st', (List.replicate n mixCopy).foldlM (g.bindScratch openEnv) st = .ok st' := by
  induction n generalizing st with
  | zero => exact ⟨st, rfl⟩
  | succ n ih =>
    have hstep : g.bindScratch openEnv st mixCopy =
        .ok { st with offsets := st.offsets ++ [st.offsets.getD j 0] } := by
      have hsource : st.source (mixCopy.primalSource.getD mixCopy.out) = some j := h
      unfold Graph.bindScratch
      rw [if_neg (by decide), if_pos (by decide), hsource]
    rw [List.replicate_succ, List.foldlM_cons, hstep]
    exact ih _ h

/-- `bind_` accepts the graph. -/
lemma longRunGraph_layout (n : ℕ) :
    ∃ L, (longRunGraph (n + 1)).layout openEnv (fun _ => 0) = .ok L := by
  set g := longRunGraph (n + 1) with hg
  have hslot : ∀ i < 3, ∀ st, g.bindSlot openEnv st i = .ok st := by
    intro i hi st
    rcases i with _ | _ | _ | i
    · rfl
    · rfl
    · rfl
    · omega
  have hthree : ∀ st : ValueLayout, st.off = 3 → ∃ st', g.bindSlot openEnv st 3 = .ok st' := by
    intro st hst
    unfold Graph.bindSlot
    rw [longRunGraph_primalFrom]
    simp only [hst]
    exact ⟨_, rfl⟩
  have hfour : ∀ st, g.bindSlot openEnv st 4 = .ok st := by
    intro st
    unfold Graph.bindSlot
    rw [longRunGraph_primalFrom_copy]
    rfl
  obtain ⟨params, hparams, hoff⟩ : ∃ params, (List.range 5).foldlM (g.bindParam openEnv)
      ⟨fun _ => 0, fun _ => none, 0, 0⟩ = .ok params ∧ params.off = 3 := ⟨_, rfl, rfl⟩
  obtain ⟨values, hvalues⟩ : ∃ values, (List.range 5).foldlM (g.bindSlot openEnv) params =
      .ok values := by
    obtain ⟨st, hst⟩ := hthree params hoff
    refine ⟨st, ?_⟩
    have hrange : List.range 5 = [0, 1, 2, 3, 4] := rfl
    rw [hrange]
    simp only [List.foldlM_cons, List.foldlM_nil, hslot 0 (by omega), hslot 1 (by omega),
      hslot 2 (by omega), bind, Except.bind, hst, hfour]
    rfl
  obtain ⟨adj, hadj⟩ : ∃ adj, (List.range 5).foldlM (g.bindAdjoint openEnv g.isParam)
      ⟨fun _ => none, 0⟩ = .ok adj ∧ adj.size = 3 := ⟨_, rfl, rfl⟩
  obtain ⟨adj', hadj'⟩ : ∃ adj', (List.range 5).foldlM (g.bindAdjoint openEnv g.ownsAdjoint) adj =
      .ok adj' := by
    have hadj := hadj.2
    obtain ⟨offset, size⟩ := adj
    obtain rfl : size = 3 := hadj
    exact ⟨_, rfl⟩
  obtain ⟨scratch, hscratch⟩ : ∃ scratch, g.ops.foldlM (g.bindScratch openEnv)
      ⟨[], 0, fun _ => none⟩ = .ok scratch := by
    have hfirst : g.bindScratch openEnv ⟨[], 0, fun _ => none⟩ mixSource =
        .ok ⟨[0], 1, Function.update (fun _ => none) 3 (some 0)⟩ := rfl
    have hops : g.ops = mixSource :: List.replicate (n + 1) mixCopy := rfl
    rw [hops, List.foldlM_cons, hfirst]
    exact longRunGraph_scratch g (n + 1) ⟨[0], 1, Function.update (fun _ => none) 3 (some 0)⟩
      (j := 0) rfl
  have hlen : g.slots.length = 5 := rfl
  unfold Graph.layout
  simp only [hlen, hparams, hvalues, hadj.1, hadj', hscratch, bind, Except.bind]
  exact ⟨_, rfl⟩

/-- A context of a scalar mixture whose three arguments have adjoints. -/
structure MixCtx (c : KernelCtx Unit) : Prop where
  out : c.out.2 = 1
  adj : ∀ k < 3, (c.adj k).1 ≠ .null ∧ (c.adj k).2 = 1

/-- In the long run every context is one. -/
lemma longRunGraph_ctx (h : (longRunGraph n).layout openEnv (fun _ => 0) = .ok L) {op : Op Unit}
    (hop : op ∈ (longRunGraph n).ops) (buffer so : ℕ) :
    MixCtx (L.kernelCtx openEnv (longRunGraph n) buffer op so) := by
  have ha := Graph.accepted_of_layout h
  have hadj : ∀ k < 3, L.adjointOffset k = some ((longRunGraph n).paramsBefore k) := by
    intro k hk
    rw [ha.adjointOffset]
    have hslots : 3 < (longRunGraph n).slots.length := Nat.lt_of_sub_eq_succ rfl
    refine (Graph.param_offset (B := openEnv) (Nat.lt_trans hk hslots) ?_).2
    rcases k with _ | _ | _ | k
    · rfl
    · rfl
    · rfl
    · omega
  have hop' : op = mixSource ∨ op = mixCopy :=
    (List.mem_cons.1 hop).imp_right fun h => List.eq_of_mem_replicate h
  have hins : op.ins = [0, 1, 2] := by
    rcases hop' with rfl | rfl <;> rfl
  have hparam : ∀ k < 3, (longRunGraph n).isParam k = true ∧ (longRunGraph n).len k = 1 := by
    intro k hk
    rcases k with _ | _ | _ | k
    · exact ⟨rfl, rfl⟩
    · exact ⟨rfl, rfl⟩
    · exact ⟨rfl, rfl⟩
    · omega
  constructor
  · rcases hop' with rfl | rfl <;> rfl
  · intro k hk
    have hget : ((L.kernelCtx openEnv (longRunGraph n) buffer op so).adj k) =
        (.adjoint ((longRunGraph n).paramsBefore k), 1) := by
      have hone : op.ins[k]? = some k := by
        rw [hins]
        rcases k with _ | _ | _ | k
        · rfl
        · rfl
        · rfl
        · omega
      simp [KernelCtx.adj, Layout.kernelCtx, Layout.makeCtx, hone, hparam k hk, hadj k hk, adjointPtr]
    rw [hget]
    exact ⟨by simp, rfl⟩

/-- A micro-op makes one accumulation at most. -/
lemma length_log_runBwdMicro (m : BwdMicro ℤ) (st : RevState ℤ Unit) :
    (runBwdMicro intKernels m st).log.length ≤ st.log.length + 1 := by
  unfold runBwdMicro
  split
  · simp [RevState.add]
  · simp [RevState.sub]
  · split
    · omega
    · simp [RevState.add]
  · simp [RevState.add]
  · split
    · omega
    · simp [RevState.add]

/-- The backward of a scalar mixture makes three accumulations. -/
lemma MixCtx.length_log {c : KernelCtx Unit} (h : MixCtx c) (p : Ptr) (st : RevState ℤ Unit) :
    (callBackward (mixBwd 3) c p st).log.length = st.log.length + 3 := by
  have hrange : List.range 3 = [0, 1, 2] := rfl
  have hstep : ∀ k < 3, ∀ st : RevState ℤ Unit,
      (mixArgBwd 3 c st k).log.length = st.log.length + 1 := by
    intro k hk st
    rw [mixArgBwd_scalar h.out, if_neg (h.adj k hk).1]
    simp [RevState.add]
  unfold callBackward mixBwd
  rw [hrange]
  simp only [List.foldl_cons, List.foldl_nil]
  rw [hstep 2 (by omega), hstep 1 (by omega), hstep 0 (by omega)]

/-- Its micro form has three micro-ops. -/
lemma MixCtx.micros {c : KernelCtx Unit} (h : MixCtx c) :
    (mixMicro (V := ℤ) 3 c).1 = true ∧ (mixMicro (V := ℤ) 3 c).2.length = 3 := by
  have hany : ((List.range 3).any fun k => decide ((c.adj k).1 ≠ .null ∧ (c.adj k).2 ≠ 1)) = false := by
    rw [List.any_eq_false]
    intro k hk
    simp [(h.adj k (List.mem_range.1 hk)).2]
  have hrange : List.range 3 = [0, 1, 2] := rfl
  unfold mixMicro
  rw [if_neg (by simp [h.out]), hany]
  refine ⟨rfl, ?_⟩
  simp [hrange, mixArgMicro, (h.adj 0 (by omega)).1, (h.adj 1 (by omega)).1, (h.adj 2 (by omega)).1]

/-- Called one by one, the backwards make three accumulations for each op. -/
lemma longRunGraph_unfused (h : (longRunGraph n).layout openEnv (fun _ => 0) = .ok L) (buffer : ℕ)
    (st : RevState ℤ Unit) :
    ((longRunGraph n).reverseUnfused intKernels openEnv L buffer st).log.length =
      st.log.length + 3 * (n + 1) := by
  obtain ⟨source, hs⟩ := (Graph.accepted_of_layout h).scratch
  have hlen : ((longRunGraph n).ops.zip L.scratchOffsets).reverse.length = n + 1 := by
    have : L.scratchOffsets.length = (longRunGraph n).ops.length := hs.length
    rw [List.length_reverse, List.length_zip, this, longRunGraph]
    simp
  have key : ∀ l : List (Op Unit × ℕ), (∀ p ∈ l, p.1 ∈ (longRunGraph n).ops) →
      ∀ st : RevState ℤ Unit,
      (l.foldl ((longRunGraph n).backwardCall intKernels openEnv L buffer) st).log.length =
        st.log.length + 3 * l.length := by
    intro l
    induction l with
    | nil => exact fun _ _ => rfl
    | cons p l ih =>
      intro hl st
      have hp := hl p (List.mem_cons_self ..)
      have hoc : p.1.opcode = .logMix := by
        rcases List.mem_cons.1 hp with hp | hp
        · rw [hp]
          rfl
        · rw [List.eq_of_mem_replicate hp]
          rfl
      have hcall : ((longRunGraph n).backwardCall intKernels openEnv L buffer st p).log.length =
          st.log.length + 3 := by
        have hb : intKernels.backward p.1.opcode = some (mixBwd 3) := by rw [hoc]; rfl
        unfold Graph.backwardCall
        rw [hb]
        exact (longRunGraph_ctx h hp buffer p.2).length_log _ _
      rw [List.foldl_cons, ih (fun q hq => hl q (List.mem_cons_of_mem _ hq)), hcall,
        List.length_cons]
      omega
  rw [Graph.reverseUnfused, key _ fun p hp => ?_, hlen]
  exact (List.of_mem_zip (a := p.1) (b := p.2) (List.mem_reverse.1 hp)).1

/-- What the loop over the ops has after `k` copies: all of them wait. -/
structure Waiting (k : ℕ) (p : ReversePlan Unit ℤ Unit) : Prop where
  bwd : p.bwd = []
  microRuns : p.microRuns = []
  micro : p.micro.length = 3 * k
  pending : p.pending.length = k
  runStart : p.runStart = 0

lemma Waiting.addOp {k : ℕ} {p : ReversePlan Unit ℤ Unit} (h : Waiting k p)
    {ctx : ℕ → KernelCtx Unit} {ci : ℕ} (hc : MixCtx (ctx ci)) (L : Layout) :
    Waiting (k + 1) (p.addOp intKernels L ctx mixCopy ci) := by
  obtain ⟨hok, hlen⟩ := hc.micros
  have hne : (mixMicro (V := ℤ) 3 (ctx ci)).2.isEmpty = false := by
    rw [Bool.eq_false_iff, ne_eq, List.isEmpty_iff_length_eq_zero, hlen]
    omega
  have hadd : p.addOp intKernels L ctx mixCopy ci = { p with
      runStart := if p.pending.isEmpty then p.micro.length else p.runStart
      micro := p.micro ++ tagged .logMix (mixMicro 3 (ctx ci)).2
      pending := p.pending ++ [⟨ci, mixBwd 3, mixMicro 3, .logMix⟩] } := by
    have hb : intKernels.backward mixCopy.opcode = some (mixBwd 3) := rfl
    have hf : (if mixCopy.cached && mixCopy.out2.isNone then intKernels.cachedMicro mixCopy.opcode
        else none) = some (mixMicro 3) := rfl
    unfold ReversePlan.addOp
    rw [hb, hf]
    dsimp only
    rw [if_pos hok, hne]
    rfl
  rw [hadd]
  refine ⟨h.bwd, h.microRuns, ?_, by simp [h.pending], ?_⟩
  · simp only [tagged, List.length_append, List.length_map, hlen, h.micro]
    omega
  · dsimp only
    split
    · rename_i hp
      rw [List.isEmpty_iff_length_eq_zero, h.pending] at hp
      rw [h.micro, hp]
    · exact h.runStart

/-- The long run's plan: one batch, with the positions as they are kept, and the source's step. -/
lemma longRunGraph_plan (h : (longRunGraph (n + 1)).layout openEnv (fun _ => 0) = .ok L) :
    let p := ((longRunGraph (n + 1)).bindReverse intKernels openEnv L 0).plan
    p.bwd = [none, some ⟨mixBwd 3, 0, .null⟩] ∧
      p.microRuns = [⟨0, toUInt32 (3 * (n + 1)), 0⟩] ∧ p.micro.length = 3 * (n + 1) := by
  set g := longRunGraph (n + 1) with hg
  obtain ⟨source, hs⟩ := (Graph.accepted_of_layout h).scratch
  have hlen : L.scratchOffsets.length = g.ops.length := hs.length
  set ctx := g.bindCtx openEnv L 0 with hctx
  have hzip : g.ops.zip g.ctxPos = (mixSource, 0) ::
      (List.replicate (n + 1) mixCopy).zip (ctxPositions 1 g.nForward (List.replicate (n + 1) mixCopy)) :=
    rfl
  have hmix : ∀ q ∈ (List.replicate (n + 1) mixCopy).zip
      (ctxPositions 1 g.nForward (List.replicate (n + 1) mixCopy)), q.1 = mixCopy ∧ MixCtx (ctx q.2) := by
    intro q hq
    refine ⟨List.eq_of_mem_replicate (List.of_mem_zip (a := q.1) (b := q.2) hq).1, ?_⟩
    have hmem : q ∈ (g.bound L).map fun t => (t.1.1, t.2) := by
      rw [← Graph.bound_ops hlen, hzip]
      exact List.mem_cons_of_mem _ hq
    obtain ⟨t, ht, rfl⟩ := List.mem_map.1 hmem
    rw [hctx, Graph.bindCtx_at 0 ht]
    have hop := (List.of_mem_zip (a := t.1) (b := t.2) ht).1
    exact longRunGraph_ctx h (List.of_mem_zip (a := t.1.1) (b := t.1.2) hop).1 0 t.1.2
  have hwait : ∀ l : List (Op Unit × ℕ), (∀ q ∈ l, q.1 = mixCopy ∧ MixCtx (ctx q.2)) →
      ∀ k p, Waiting k p → Waiting (k + l.length) (l.foldl
        (fun (p : ReversePlan Unit ℤ Unit) q => p.addOp intKernels L ctx q.1 q.2) p) := by
    intro l
    induction l with
    | nil => exact fun _ k p hp => hp
    | cons q l ih =>
      intro hl k p hp
      obtain ⟨hq, hc⟩ := hl q (List.mem_cons_self ..)
      have := ih (fun q hq => hl q (List.mem_cons_of_mem _ hq)) (k + 1) _ (hp.addOp hc L)
      rw [List.foldl_cons, hq, List.length_cons, Nat.add_comm l.length, ← Nat.add_assoc]
      exact this
  have hcopies := hwait _ (fun q hq => hmix q (List.mem_reverse.1 hq)) 0 {} ⟨rfl, rfl, rfl, rfl, rfl⟩
  rw [Nat.zero_add, List.length_reverse, List.length_zip, length_ctxPositions, Nat.min_self,
    List.length_replicate] at hcopies
  set p := (((List.replicate (n + 1) mixCopy).zip (ctxPositions 1 g.nForward
    (List.replicate (n + 1) mixCopy))).reverse.foldl
    (fun (p : ReversePlan Unit ℤ Unit) q => p.addOp intKernels L ctx q.1 q.2) {}) with hp
  have hplan : (g.bindReverse intKernels openEnv L 0).plan =
      (p.addOp intKernels L ctx mixSource 0).closeRun := by
    have hunfold : (g.bindReverse intKernels openEnv L 0).plan =
        ((g.ops.zip g.ctxPos).reverse.foldl
          (fun (p : ReversePlan Unit ℤ Unit) q => p.addOp intKernels L ctx q.1 q.2) {}).closeRun := rfl
    rw [hunfold, hzip, List.reverse_cons, List.foldl_append]
    rfl
  have hpush : p.addOp intKernels L ctx mixSource 0 = p.pushStep ⟨mixBwd 3, 0, .null⟩ := rfl
  have hclose : p.closeRun.bwd = [none] ∧ p.closeRun.microRuns = [⟨0, toUInt32 (3 * (n + 1)), 0⟩] ∧
      p.closeRun.micro = p.micro ∧ p.closeRun.pending = [] := by
    have hpend : p.pending.isEmpty = false := by
      rw [Bool.eq_false_iff, ne_eq, List.isEmpty_iff_length_eq_zero, hcopies.pending]
      omega
    unfold ReversePlan.closeRun
    rw [hpend, if_neg (by simp), if_pos (by
      rw [hcopies.micro, hcopies.runStart, minMicroRun]
      omega)]
    refine ⟨?_, ?_, rfl, rfl⟩
    · simp [hcopies.bwd]
    · simp [hcopies.microRuns, hcopies.micro, hcopies.runStart, hcopies.bwd, toUInt32]
  have hend : (p.pushStep ⟨mixBwd 3, 0, .null⟩).closeRun = p.pushStep ⟨mixBwd 3, 0, .null⟩ := by
    have : (p.pushStep ⟨mixBwd 3, 0, .null⟩).pending = [] := hclose.2.2.2
    rw [ReversePlan.closeRun, this]
    rfl
  dsimp only
  rw [hplan, hpush, hend]
  refine ⟨?_, hclose.2.1, ?_⟩
  · simp [ReversePlan.pushStep, hclose.1]
  · simp [ReversePlan.pushStep, hclose.2.2.1, hcopies.micro]

/-- The context of the source is the first one. -/
lemma longRunGraph_ctx_zero (h : (longRunGraph n).layout openEnv (fun _ => 0) = .ok L) :
    MixCtx ((longRunGraph n).bindCtx openEnv L 0 0) := by
  obtain ⟨source, hs⟩ := (Graph.accepted_of_layout h).scratch
  have hlen : L.scratchOffsets.length = (longRunGraph n).ops.length := hs.length
  have hmem : (mixSource, 0) ∈ ((longRunGraph n).bound L).map fun t => (t.1.1, t.2) := by
    rw [← Graph.bound_ops hlen]
    exact List.mem_cons_self ..
  obtain ⟨t, ht, heq⟩ := List.mem_map.1 hmem
  have hzero : t.2 = 0 := congrArg Prod.snd heq
  have hat := Graph.bindCtx_at (B := openEnv) 0 ht
  rw [hzero] at hat
  rw [hat]
  have hop := (List.of_mem_zip (a := t.1) (b := t.2) ht).1
  exact longRunGraph_ctx h (List.of_mem_zip (a := t.1.1) (b := t.1.2) hop).1 0 t.1.2

/-- The plan makes no more accumulations than its positions can count, and three more. -/
lemma longRunGraph_reverse (h : (longRunGraph (n + 1)).layout openEnv (fun _ => 0) = .ok L)
    (st : RevState ℤ Unit) :
    ∃ st', ((longRunGraph (n + 1)).bindReverse intKernels openEnv L 0).reverse intKernels false st =
      some st' ∧ st'.log.length ≤ st.log.length + toUInt32 (3 * (n + 1)) + 3 := by
  obtain ⟨hbwd, hruns, hmicro⟩ := longRunGraph_plan h
  have hctx := longRunGraph_ctx_zero h
  set E := (longRunGraph (n + 1)).bindReverse intKernels openEnv L 0 with hE
  have hle : toUInt32 (3 * (n + 1)) ≤ E.plan.micro.length := by
    rw [hmicro]
    exact Nat.mod_le ..
  have hrange : ∀ (ms : List (BwdMicro ℤ)) (st : RevState ℤ Unit),
      (ms.foldl (fun st m => runBwdMicro intKernels m st) st).log.length ≤
        st.log.length + ms.length := by
    intro ms
    induction ms with
    | nil => exact fun _ => le_rfl
    | cons m ms ih =>
      intro st
      have h1 := ih (runBwdMicro intKernels m st)
      have h2 := length_log_runBwdMicro m st
      rw [List.foldl_cons, List.length_cons]
      omega
  have hdense : ¬E.plan.micro.length * 2 < E.plan.bwd.length := by
    rw [hmicro, hbwd, List.length_cons, List.length_singleton]
    omega
  have hrun : ReverseExecutor.reverse E intKernels false st =
      some (E.runStep ⟨mixBwd 3, 0, .null⟩
        (((E.plan.micro.take (toUInt32 (3 * (n + 1)))).drop 0).foldl
          (fun st m => runBwdMicro intKernels m st) st)) := by
    unfold ReverseExecutor.reverse
    rw [if_neg (by simp), if_pos (by simp [hruns]), if_neg hdense,
      ReverseExecutor.reverseDense, hbwd, hruns]
    simp only [walkDense, runRange]
    rw [if_pos ⟨Nat.zero_le _, hle⟩]
    rfl
  refine ⟨_, hrun, ?_⟩
  have hstep := hctx.length_log .null (((E.plan.micro.take (toUInt32 (3 * (n + 1)))).drop 0).foldl
    (fun st m => runBwdMicro intKernels m st) st)
  have hmicros := hrange ((E.plan.micro.take (toUInt32 (3 * (n + 1)))).drop 0) st
  rw [List.drop_zero, List.length_take, Nat.min_eq_left hle] at hmicros
  rw [ReverseExecutor.runStep]
  rw [List.drop_zero] at hstep ⊢
  calc _ = _ := hstep
    _ ≤ _ := by omega

/-- With more micro-ops than its positions can count, the plan makes too few accumulations. -/
theorem longRunGraph_not_fused :
    ∃ L, (longRunGraph 1431655766).layout openEnv (fun _ => 0) = .ok L ∧
      (longRunGraph 1431655766).ops.length ≤ 2 ^ 31 ∧
      (longRunGraph 1431655766).MicroContract intKernels openEnv L ∧
      ((longRunGraph 1431655766).bindReverse intKernels openEnv L 0).reverse intKernels false
          unitState ≠
        some ((longRunGraph 1431655766).reverseUnfused intKernels openEnv L 0 unitState) := by
  have key : ∀ n, toUInt32 (3 * (n + 1)) < 3 * (n + 1) → n + 2 ≤ 2 ^ 31 →
      ∃ L, (longRunGraph (n + 1)).layout openEnv (fun _ => 0) = .ok L ∧
        (longRunGraph (n + 1)).ops.length ≤ 2 ^ 31 ∧
        (longRunGraph (n + 1)).MicroContract intKernels openEnv L ∧
        ((longRunGraph (n + 1)).bindReverse intKernels openEnv L 0).reverse intKernels false
            unitState ≠
          some ((longRunGraph (n + 1)).reverseUnfused intKernels openEnv L 0 unitState) := by
    intro n hwrap hn
    obtain ⟨L, hL⟩ := longRunGraph_layout n
    refine ⟨L, hL, ?_, microKernels_contract .., fun heq => ?_⟩
    · have hlen : (longRunGraph (n + 1)).ops.length = n + 2 := by
        rw [longRunGraph, List.length_cons, List.length_replicate]
      omega
    · obtain ⟨st', hst', hle⟩ := longRunGraph_reverse hL unitState
      have hall := longRunGraph_unfused hL 0 unitState
      rw [hst'] at heq
      rw [← Option.some.inj heq] at hall
      omega
  exact key 1431655765 (by unfold toUInt32; omega) (by omega)

end LongRun

end Stanli
