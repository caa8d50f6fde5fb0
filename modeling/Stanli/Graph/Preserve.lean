import Stanli.Graph.Stores

/-!
# Comparing two forward sweeps

What a graph rewrite must preserve of one forward evaluation, and the step lemma for the ops it
leaves alone.
-/

namespace Stanli

variable {U V S W : Type*}

/-- The roots of a pass: the ones it is given, and the result slot. -/
def Graph.isRoot (g : Graph U) (roots : List ℕ) (s : ℕ) : Bool :=
  decide (s ∈ roots) || decide (g.resultSlot = some s)

/-- `g'` evaluates like `g`: from the arenas `m` and `m'` the sweeps fail alike, and if they do not,
they leave the effects in the same state and every root with the same value.  `mask` tells which ops
of `g` are still in `g'`; each of those reads the same inputs. -/
def Graph.ForwardPreserved (K : Kernels U V S W) (g g' : Graph U) (roots : List ℕ)
    (mask : List Bool) (m m' : Arena V) (w : W) : Prop :=
  Rewriter.Simulated
    (fun s s' => s'.world = s.world ∧
      ∀ r, g.isRoot roots r = true → g'.bind.read s'.mem r = g.bind.read s.mem r)
    (fun o o' => o'.inputs = o.inputs) mask (g.forward K m w) (g'.forward K m' w)

/-- A graph evaluates like itself. -/
lemma Graph.ForwardPreserved.refl (K : Kernels U V S W) (g : Graph U) (roots : List ℕ) (m : Arena V)
    (w : W) : g.ForwardPreserved K g roots (List.replicate g.ops.length true) m m w := by
  refine ⟨rfl, fun _ => ⟨rfl, fun _ _ => rfl⟩, ?_⟩
  have hlog : (g.forward K m w).log.length ≤ g.ops.length := Machine.length_log_le
  generalize (g.forward K m w).log = os at hlog
  generalize g.ops.length = n at hlog
  induction os generalizing n with
  | nil => simp
  | cons o os ih =>
    cases n with
    | zero => simp at hlog
    | succ n =>
      rw [List.replicate_succ, applyMask_true_cons]
      exact .cons rfl (ih n (by simpa using hlog))

/-- Ops that make the same call with the same buffer sizes get the same answer. -/
lemma Kernels.call_congr (K : Kernels U V S W) {b b' : Binding} {op op' : Op U}
    (hcall : op'.call = op.call) (hout : b'.len op'.out = b.len op.out)
    (hout2 : op'.out2.map b'.len = op.out2.map b.len) (ins : List (List V)) (w : W) :
    K.call b' op' ins w = K.call b op ins w := by
  simp only [Kernels.call, hcall, hout, hout2]

/-- Two ops that make the same call on the same inputs fail together, or leave the same buffers. -/
lemma forwardOp_kernel_pair {K : Kernels U V S W} {b b' : Binding} {op op' : Op U}
    {σ τ : SweepState V S W} (hp : op.primalSource = none) (hp' : op'.primalSource = none)
    (hr : op.opcode.isRouted = false) (hcall : op'.call = op.call)
    (hout : b'.len op'.out = b.len op.out) (hout2 : op'.out2.map b'.len = op.out2.map b.len)
    (hins : op'.ins.map (b'.read τ.mem) = op.ins.map (b.read σ.mem))
    (hworld : τ.world = σ.world) :
    (∃ e, forwardOp K b op σ = .error e ∧ forwardOp K b' op' τ = .error e) ∨
    ∃ (r : KernelOut V S) (w : W), forwardOp K b op σ =
        .ok ({ mem := op.store b r.out r.out2 σ.mem, world := w, shared := σ.shared },
          ⟨op.shown b σ.mem, some r.scratch⟩) ∧
      forwardOp K b' op' τ =
        .ok ({ mem := op'.store b' r.out r.out2 τ.mem, world := w, shared := τ.shared },
          ⟨op'.shown b' τ.mem, some r.scratch⟩) := by
  have hoc : op'.opcode = op.opcode := congrArg KernelCall.opcode hcall
  rw [forwardOp_kernel hp hr, forwardOp_kernel hp' (hoc ▸ hr), hins, hworld,
    K.call_congr hcall hout hout2]
  cases K.call b op (op.ins.map (b.read σ.mem)) σ.world with
  | error e => exact .inl ⟨e, rfl, rfl⟩
  | ok r => exact .inr ⟨r.1, r.2, rfl, rfl⟩

/-- An op that stores to its own buffers leaves all other slots alone. -/
lemma Op.store_apply_of_notMem (op : Op U) {b : Binding} (hhome : ∀ s ∈ op.outs, b.home s = s)
    {o o2 : ℕ → V} {m : Arena V} {s : ℕ} (hs : s ∉ op.outs) : op.store b o o2 m s = m s := by
  have hout : b.home op.out = op.out := hhome op.out (by simp)
  rw [Op.mem_outs, not_or] at hs
  unfold Op.store
  cases h2 : op.out2 with
  | none => simp [hout, hs.1]
  | some t =>
    have ht : s ≠ t := fun h => hs.2 (h ▸ h2)
    simp [hout, hhome t (by simp [h2]), hs.1, ht]

/-- Storing the same buffers gives the same cells in every output. -/
lemma Op.store_apply_of_mem (op op' : Op U) {b b' : Binding} (hhome : ∀ s ∈ op.outs, b.home s = s)
    (hhome' : ∀ s ∈ op.outs, b'.home s = s) (hout : op'.out = op.out) (hout2 : op'.out2 = op.out2)
    {o o2 : ℕ → V} {m m' : Arena V} {s : ℕ} (hs : s ∈ op.outs) :
    op'.store b' o o2 m' s = op.store b o o2 m s := by
  have hmem : op.out ∈ op.outs := by simp
  rw [Op.mem_outs] at hs
  unfold Op.store
  rw [hout, hout2, hhome _ hmem, hhome' _ hmem]
  cases h2 : op.out2 with
  | none =>
    have : s = op.out := by simpa [h2] using hs
    simp [this]
  | some t =>
    have hmem2 : t ∈ op.outs := by simp [h2]
    simp only [hhome t hmem2, hhome' t hmem2]
    by_cases ht : s = t
    · simp [ht]
    · have : s = op.out := by
        rcases hs with h | h
        · exact h
        · exact absurd (Option.some.inj (h2.symm.trans h)).symm ht
      rw [Function.update_of_ne ht, Function.update_of_ne ht]
      simp [this]

/-- An op that runs its kernel leaves the slots it does not write alone. -/
lemma forwardOp_frame {K : Kernels U V S W} {b : Binding} {op : Op U} {st st' : SweepState V S W}
    {o : LogEntry V S} (hc : op.cached = false) (hhome : ∀ s ∈ op.outs, b.home s = s)
    (h : forwardOp K b op st = .ok (st', o)) {s : ℕ} (hs : s ∉ op.outs) : st'.mem s = st.mem s := by
  cases hr : op.routed b st.mem with
  | some buf =>
    simp only [forwardOp, hc, hr, Bool.false_eq_true, if_false, Except.ok.injEq,
      Prod.mk.injEq] at h
    obtain ⟨rfl, -⟩ := h
    rw [hhome op.out (by simp)]
    exact Function.update_of_ne (fun heq => hs (by simp [heq])) _ _
  | none =>
    simp only [forwardOp, hc, hr, Bool.false_eq_true, if_false] at h
    cases hk : K.call b op (op.ins.map (b.read st.mem)) st.world with
    | error e =>
      rw [hk] at h
      cases h
    | ok r =>
      rw [hk] at h
      simp only [Except.ok.injEq, Prod.mk.injEq] at h
      obtain ⟨rfl, -⟩ := h
      exact op.store_apply_of_notMem hhome hs

/-- One op has run in both sweeps: it read the same, leaves the effects in the same state, and leaves
the same in its outputs. -/
structure StepPair (op : Op U) (len : ℕ → ℕ) (σ τ σ' τ' : SweepState V S W)
    (o o' : LogEntry V S) : Prop where
  inputs : o'.inputs = o.inputs
  scratch : o'.scratch = o.scratch
  world : τ'.world = σ'.world
  frame : ∀ s, s ∉ op.outs → σ'.mem s = σ.mem s ∧ τ'.mem s = τ.mem s
  outs : ∀ s ∈ op.outs, ∀ e < len s, τ'.mem s e = σ'.mem s e

section Pair

variable {K : Kernels U V S W} {b b' : Binding} {op : Op U} {f : ℕ → ℕ} {σ τ : SweepState V S W}

/-- What the kernel reads of its inputs under other names. -/
lemma Op.shown_mapIns (hsafe : op.InBounds b.len) (hhome : b.home = id)
    (hlen : ∀ s ∈ op.ins, b'.len (f s) = b.len s)
    (hread : ∀ s ∈ op.ins, ∀ e < b.len s, τ.mem (b'.home (f s)) e = σ.mem s e) :
    (op.mapIns f).shown b' τ.mem = op.shown b σ.mem := by
  have hcells : ∀ s ∈ op.ins, b'.read τ.mem (f s) = b.read σ.mem s := by
    intro s hs
    refine Binding.read_eq_read (hlen s hs) fun e he => ?_
    rw [hhome]
    exact hread s hs e (hlen s hs ▸ he)
  by_cases hip : op.opcode.isInplaceStore = true
  · obtain ⟨hl, -⟩ := hsafe.rhs (Opcode.isStore_of_isInplaceStore hip)
    have hm0 : op.input 0 ∈ op.ins := Op.input_mem (by omega)
    rw [Op.shown_inplace hip, Op.shown_inplace (by exact hip), Op.mapIns_input (by omega),
      Op.mapIns_input hl, hlen _ hm0, hlen _ (Op.input_mem hl), Op.mapIns_comb, Op.mapIns_ins,
      hhome]
    congr 1
    · refine List.map_congr_left fun e he => hread _ hm0 e ?_
      exact List.mem_range.1 (List.mem_of_mem_filter he)
    · rw [← List.map_tail, List.map_map]
      exact List.map_congr_left fun s hs => hcells s (List.mem_of_mem_tail hs)
  · rw [Bool.not_eq_true] at hip
    rw [Op.shown_of_not_inplace hip, Op.shown_of_not_inplace (by exact hip), Op.mapIns_ins,
      List.map_map]
    exact List.map_congr_left hcells

/-- What an op whose kernel only moves values leaves in its output, under other names. -/
lemma Op.routed_mapIns (hsafe : op.InBounds b.len) (hhome : b.home = id)
    (hhome' : b'.home op.out = op.out) (hlen : ∀ s ∈ op.ins, b'.len (f s) = b.len s)
    (hread : ∀ s ∈ op.ins, ∀ e < b.len s, τ.mem (b'.home (f s)) e = σ.mem s e)
    (hold : op.opcode = .index ∨ op.opcode.isInplaceStore = true → ∀ e < b.len op.out,
      (op.opcode = .index → e ≠ 0) → τ.mem op.out e = σ.mem op.out e)
    (hr : op.opcode.isRouted = true) :
    ∃ buf buf', op.routed b σ.mem = some buf ∧ (op.mapIns f).routed b' τ.mem = some buf' ∧
      ∀ e < b.len op.out, buf' e = buf e := by
  have hlen0 : ∀ {s : ℕ}, s ∈ op.ins → 0 < op.ins.length := fun h => List.length_pos_of_mem h
  rcases Opcode.isRouted_iff.1 hr with hi | hcp | hip
  · obtain ⟨hm0, hlt⟩ := hsafe.load hi
    refine ⟨_, _, Op.routed_index hi _ _, Op.routed_index (by exact hi) _ _, fun e he => ?_⟩
    rw [Op.mapIns_input (hlen0 hm0), Op.mapIns_imm, Op.mapIns_out, hhome, hhome']
    simp only [Function.update_apply, id_eq]
    by_cases he0 : e = 0
    · rw [if_pos he0, if_pos he0, hread _ hm0 _ hlt]
    · rw [if_neg he0, if_neg he0, hold (.inl hi) e he fun _ => he0]
  · obtain ⟨hl, hn⟩ := hsafe.rhs (by simp [Opcode.isStore, hcp])
    have hm0 : op.input 0 ∈ op.ins := Op.input_mem (by omega)
    have hm1 : op.input 1 ∈ op.ins := Op.input_mem hl
    refine ⟨_, _, Op.routed_copying hcp _ _, Op.routed_copying (by exact hcp) _ _, fun e he => ?_⟩
    rw [Op.mapIns_input (hlen0 hm0), Op.mapIns_input hl, hlen _ hm1, Op.mapIns_comb, hhome]
    refine writeComb_congr (fun k hk => hread _ hm1 k (by omega)) fun _ => hread _ hm0 e ?_
    have := hsafe.base hcp
    omega
  · obtain ⟨hl, hn⟩ := hsafe.rhs (Opcode.isStore_of_isInplaceStore hip)
    have hm1 : op.input 1 ∈ op.ins := Op.input_mem hl
    refine ⟨_, _, Op.routed_inplace hip _ _, Op.routed_inplace (by exact hip) _ _, fun e he => ?_⟩
    rw [Op.mapIns_input hl, hlen _ hm1, Op.mapIns_comb, Op.mapIns_out, hhome, hhome']
    refine writeComb_congr (fun k hk => hread _ hm1 k (by omega)) fun _ => ?_
    refine hold (.inr hip) e he fun hi => ?_
    exact absurd hi (Opcode.ne_index_of_isStore (Opcode.isStore_of_isInplaceStore hip))

/-- The same op, its inputs under other names, on memories that agree on what it reads. -/
lemma forwardOp_mapIns_pair (hp : op.primalSource = none) (hsafe : op.InBounds b.len)
    (hhome : b.home = id) (hhome' : ∀ s ∈ op.outs, b'.home s = s)
    (hlen : ∀ s ∈ op.ins, b'.len (f s) = b.len s) (hlenOut : ∀ s ∈ op.outs, b'.len s = b.len s)
    (hread : ∀ s ∈ op.ins, ∀ e < b.len s, τ.mem (b'.home (f s)) e = σ.mem s e)
    (hold : op.opcode = .index ∨ op.opcode.isInplaceStore = true → ∀ e < b.len op.out,
      (op.opcode = .index → e ≠ 0) → τ.mem op.out e = σ.mem op.out e)
    (hworld : τ.world = σ.world) :
    (∃ e, forwardOp K b op σ = .error e ∧ forwardOp K b' (op.mapIns f) τ = .error e) ∨
    ∃ σ' o τ' o', forwardOp K b op σ = .ok (σ', o) ∧
      forwardOp K b' (op.mapIns f) τ = .ok (τ', o') ∧ StepPair op b.len σ τ σ' τ' o o' := by
  have hshown := Op.shown_mapIns hsafe hhome hlen hread
  have hmem : op.out ∈ op.outs := by simp
  by_cases hr : op.opcode.isRouted = true
  · obtain ⟨buf, buf', hbuf, hbuf', heq⟩ :=
      Op.routed_mapIns hsafe hhome (hhome' _ hmem) hlen hread hold hr
    have houts : ∀ s, s ∈ op.outs ↔ s = op.out := fun s => by simp [hsafe.single hr]
    refine .inr ⟨_, _, _, _, forwardOp_routed hp hbuf, forwardOp_routed (by exact hp) hbuf',
      hshown, rfl, hworld, fun s hs => ?_, fun s hs e he => ?_⟩
    · have hne : s ≠ op.out := fun h => hs ((houts s).2 h)
      rw [hhome, Op.mapIns_out, hhome' _ hmem]
      exact ⟨Function.update_of_ne hne _ _, Function.update_of_ne hne _ _⟩
    · obtain rfl := (houts s).1 hs
      simp only [hhome, hhome' _ hmem, id_eq, Op.mapIns_out, Function.update_self]
      exact heq e he
  · rw [Bool.not_eq_true] at hr
    have hins : (op.mapIns f).ins.map (b'.read τ.mem) = op.ins.map (b.read σ.mem) := by
      have hnip : op.opcode.isInplaceStore = false := by
        simp only [Opcode.isRouted, Bool.or_eq_false_iff] at hr
        exact hr.2
      rwa [Op.shown_of_not_inplace hnip, Op.shown_of_not_inplace (by exact hnip)] at hshown
    have hout2 : op.out2.map b'.len = op.out2.map b.len := by
      cases h2 : op.out2 with
      | none => rfl
      | some o => rw [Option.map_some, Option.map_some, hlenOut o (by simp [h2])]
    rcases @forwardOp_kernel_pair U V S W K b b' op (op.mapIns f) σ τ hp hp hr rfl
      (hlenOut _ (by simp)) hout2 hins hworld with h | ⟨r, w, hσ, hτ⟩
    · exact .inl h
    · refine .inr ⟨_, _, _, _, hσ, hτ, hshown, rfl, rfl, fun s hs => ⟨?_, ?_⟩, fun s hs e _ => ?_⟩
      · exact op.store_apply_of_notMem (fun t _ => congrFun hhome t) hs
      · exact (op.mapIns f).store_apply_of_notMem hhome' hs
      · exact congrFun (op.store_apply_of_mem (op.mapIns f) (fun t _ => congrFun hhome t) hhome'
          rfl rfl hs) e

end Pair

end Stanli
