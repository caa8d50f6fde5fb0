import Stanli.Graph.Adjoint
import Stanli.Graph.Evaluate

/-!
# Many evaluations of one executor

An executor keeps its value arena from one evaluation to the next (`Graph.session`); only the
parameters are set anew.  A graph whose ops read nothing they have not written in the same sweep, apart
from the slots no op writes, evaluates each time like a freshly bound executor does.
-/

namespace Stanli

variable {U V S W : Type*}

/-- The arena once the parameters are set. -/
def Graph.setParams (g : Graph U) (θ m : Arena V) : Arena V :=
  fun s => if g.isParam s then θ s else m s

/-- The arena and the effects' state after `k` evaluations in a row, at the parameters `θ`. -/
def Graph.session [Zero V] (K : Kernels U V S W) (g : Graph U) (fills : Fills V) (θ : ℕ → Arena V) (w : W) :
    ℕ → Arena V × W
  | 0 => (Fills.apply fills fun _ _ => 0, w)
  | k + 1 =>
    let before := Graph.session K g fills θ w k
    let r := g.forward K (g.setParams (θ k) before.1) before.2
    (r.state.mem, r.state.world)

/-- Two evaluations of a graph that cannot be told apart: they fail alike, every op reads the same,
and the effects, the values and the adjoints they leave are the same. -/
structure SameEvaluation [AddCommMonoid V] (K : Kernels U V S W) (g : Graph U)
    (r r' : Outcome (SweepState V S W) (LogEntry V S) String) : Prop where
  error_eq : r'.error = r.error
  log_eq : r'.log = r.log
  world_eq : r'.state.world = r.state.world
  read_eq : r.error = none → ∀ s, g.bind.read r'.state.mem s = g.bind.read r.state.mem s
  adjoint_eq : r.error = none → ∀ seed, g.reverse K r' seed = g.reverse K r seed

/-- Every evaluation gives what a freshly bound executor gives at its parameters. -/
def Graph.Stateless [AddCommMonoid V] (K : Kernels U V S W) (g : Graph U) (fills : Fills V) :
    Prop :=
  ∀ θ w k, SameEvaluation K g
    (g.forward K (g.arena fills (θ k)) (g.session K fills θ w k).2)
    (g.forward K (g.setParams (θ k) (g.session K fills θ w k).1) (g.session K fills θ w k).2)

/-! ## Reading what no op has written yet -/

section EarlyRead

variable {K : Kernels U V S W} {g : Graph U} {op : Op U} {n k s : ℕ}

/-- What a step logs of its inputs. -/
lemma forwardOp_inputs {b : Binding} {σ σ' : SweepState V S W} {o : LogEntry V S}
    (h : forwardOp K b op σ = .ok (σ', o)) : o.inputs = op.shown b σ.mem := by
  unfold forwardOp at h
  split at h
  · cases hs : σ.shared (op.primalSource.getD op.out) with
    | none => simp [hs] at h
    | some s =>
      simp only [hs, Except.ok.injEq, Prod.mk.injEq] at h
      rw [← h.2]
  · cases hr : op.routed b σ.mem with
    | some buf =>
      simp only [hr, Except.ok.injEq, Prod.mk.injEq] at h
      rw [← h.2]
    | none =>
      cases hk : K.call b op (op.ins.map (b.read σ.mem)) σ.world with
      | error e => simp [hr, hk] at h
      | ok r =>
        simp only [hr, hk, Except.ok.injEq, Prod.mk.injEq] at h
        rw [← h.2]

/-- An input other than the base of a store in place is shown as it is read. -/
lemma Op.shown_getElem? (hs : op.ins[k]? = some s)
    (hbase : op.opcode.isInplaceStore = true → k ≠ 0) (b : Binding) (m : Arena V) :
    (op.shown b m)[k]? = some (b.read m s) := by
  cases hip : op.opcode.isInplaceStore with
  | false =>
    rw [Op.shown_of_not_inplace hip, List.getElem?_map, hs]
    rfl
  | true =>
    obtain ⟨k, rfl⟩ := Nat.exists_eq_succ_of_ne_zero (hbase hip)
    rw [Op.shown_inplace hip, List.getElem?_cons_succ, List.getElem?_map, List.getElem?_tail, hs]
    rfl

/-- An op reads of a slot that no op has written yet what the evaluation started from. -/
lemma Graph.forward_read_early (hp : ∀ op ∈ g.ops, op.primalSource = none)
    (hop : g.ops[n]? = some op) (hs : op.ins[k]? = some s)
    (hbase : op.opcode.isInplaceStore = true → k ≠ 0) (hfirst : ∀ i < n, ¬ Writes g.ops s i)
    {m : Arena V} {w : W} {o : LogEntry V S} (hlog : (g.forward K m w).log[n]? = some o) :
    o.inputs[k]? = some (g.bind.read m s) := by
  obtain ⟨op', σ', hop', hstep⟩ := Machine.step_of_log hlog
  obtain rfl := Option.some.inj (hop.symm.trans hop')
  have hhome := Graph.bind_home hp
  have hmem : ((forwardMachine K g.bind).run (g.ops.take n) ⟨m, w, fun _ => none⟩).state.mem s = m s := by
    refine Machine.run_invariant (P := fun (st : SweepState V S W) => st.mem s = m s) rfl
      fun op' hop' st st' o hst h => ?_
    obtain ⟨i, hi, rfl⟩ := List.mem_take_iff_getElem.1 hop'
    have hso : s ∉ g.ops[i].outs := fun hso =>
      hfirst i (by omega) ⟨_, List.getElem?_eq_getElem (by omega), hso⟩
    rw [forwardOp_frame (Op.cached_eq_false (hp _ (List.getElem_mem _)))
      (fun t _ => congrFun hhome t) h hso, hst]
  rw [forwardOp_inputs hstep, Op.shown_getElem? hs hbase]
  refine congrArg some (Binding.read_eq_read rfl fun e _ => ?_)
  rw [hhome, id_eq, hmem]

/-- When no evaluation can be told from a fresh one, a slot that is read before it is written holds at
the start of each evaluation that gets there what it held when the executor was bound. -/
theorem Graph.Stateless.leftover [AddCommMonoid V] {fills : Fills V} (h : g.Stateless K fills)
    (hp : ∀ op ∈ g.ops, op.primalSource = none) (hop : g.ops[n]? = some op)
    (hs : op.ins[k]? = some s) (hbase : op.opcode.isInplaceStore = true → k ≠ 0)
    (hfirst : ∀ i < n, ¬ Writes g.ops s i) (θ : ℕ → Arena V) (w : W) (j : ℕ)
    (hreach : n < (g.forward K (g.arena fills (θ j)) (g.session K fills θ w j).2).log.length) :
    g.bind.read (g.setParams (θ j) (g.session K fills θ w j).1) s =
      g.bind.read (g.arena fills (θ j)) s := by
  have hlog := List.getElem?_eq_getElem hreach
  have hlog' := (congrArg (·[n]?) (h θ w j).log_eq).trans hlog
  have hread := Graph.forward_read_early hp hop hs hbase hfirst hlog
  rw [Graph.forward_read_early hp hop hs hbase hfirst hlog'] at hread
  exact Option.some.inj hread

end EarlyRead

/-! ## Self-contained graphs -/

/-- The graphs whose sweeps do not see the values they start from: what an op reads or keeps is
written by no op or has been written before. -/
structure SelfContained (g : Graph U) : Prop where
  order : ∀ (n s : ℕ) (op : Op U), g.ops[n]? = some op → s ∈ op.ins → ∀ j, Writes g.ops s j →
    ∃ i < n, Writes g.ops s i
  inplace : ∀ op ∈ g.ops, op.opcode.isInplaceStore = true → op.out ∈ op.ins
  load_len : ∀ op ∈ g.ops, op.opcode = .index → g.len op.out ≤ 1
  inBounds : ∀ op ∈ g.ops, op.InBounds g.len
  noPrimal : ∀ op ∈ g.ops, op.primalSource = none

namespace SelfContained

variable {K : Kernels U V S W} {g : Graph U} {σ τ : SweepState V S W} {op : Op U} {n : ℕ}

/-- Such a graph is in evaluation order. -/
lemma evalOrder (hg : SelfContained g) : EvalOrder g.ops := by
  rintro i hi s hs ⟨op, hop, hso⟩
  obtain ⟨j, hj⟩ := List.mem_iff_getElem?.1 hop
  obtain ⟨k, hk, o, ho, hsk⟩ :=
    hg.order i s _ (List.getElem?_eq_getElem hi) hs j ⟨op, hj, hso⟩
  obtain ⟨hk', rfl⟩ := List.getElem?_eq_some_iff.1 ho
  exact ⟨_, List.mem_take_iff_getElem.2 ⟨k, by omega, rfl⟩, hsk⟩

/-- The sweeps before op `n` agree on what later ops may see. -/
structure Agree (g : Graph U) (n : ℕ) (σ τ : SweepState V S W) : Prop where
  world : τ.world = σ.world
  cell : ∀ s, (∀ j, Writes g.ops s j → ∃ i < n, Writes g.ops s i) → ∀ e < g.len s,
    τ.mem s e = σ.mem s e

/-- One op on sweeps that agree. -/
lemma step (hg : SelfContained g) (hop : g.ops[n]? = some op) (h : Agree g n σ τ) :
    (∃ e, forwardOp K g.bind op σ = .error e ∧ forwardOp K g.bind op τ = .error e) ∨
    ∃ σ' τ' o, forwardOp K g.bind op σ = .ok (σ', o) ∧ forwardOp K g.bind op τ = .ok (τ', o) ∧
      Agree g (n + 1) σ' τ' := by
  have hmem := List.mem_of_getElem? hop
  have hhome := Graph.bind_home hg.noPrimal
  have hid : op.mapIns id = op := by simp [Op.mapIns]
  have hpair := @forwardOp_mapIns_pair U V S W K g.bind g.bind op id σ τ (hg.noPrimal op hmem)
    (hg.inBounds op hmem) hhome (fun t _ => congrFun hhome t) (fun _ _ => rfl) (fun _ _ => rfl)
    (fun s hs => by rw [hhome]; exact h.cell s (hg.order n s op hop hs)) ?_ h.world
  · rw [hid] at hpair
    rcases hpair with herr | ⟨σ', o, τ', o', hσ, hτ, hp⟩
    · exact .inl herr
    · have ho : o' = o := by
        cases o
        cases o'
        obtain rfl := hp.inputs
        obtain rfl := hp.scratch
        rfl
      refine .inr ⟨σ', τ', o, hσ, ho ▸ hτ, hp.world, fun s hs e hel => ?_⟩
      by_cases hso : s ∈ op.outs
      · exact hp.outs s hso e hel
      · rw [(hp.frame s hso).1, (hp.frame s hso).2]
        refine h.cell s (fun j hj => ?_) e hel
        obtain ⟨i, hi, hw⟩ := hs j hj
        rcases Nat.lt_succ_iff_lt_or_eq.1 hi with hi | rfl
        · exact ⟨i, hi, hw⟩
        · obtain ⟨o, ho, hso'⟩ := hw
          obtain rfl := Option.some.inj (hop.symm.trans ho)
          exact absurd hso' hso
  · rintro (hi | hip) e hel hne
    · -- an element read replaces its output as a whole
      have := hg.load_len op hmem hi
      have := hne hi
      have hel' : e < g.len op.out := hel
      omega
    · exact h.cell _ (hg.order n _ op hop (hg.inplace op hmem hip)) e hel

/-- A sweep leaves the slots no op writes alone. -/
lemma forward_frame (hg : SelfContained g) {s : ℕ} (hs : ∀ j, ¬ Writes g.ops s j) (m : Arena V)
    (w : W) : (g.forward K m w).state.mem s = m s := by
  refine Machine.run_invariant (P := fun (st : SweepState V S W) => st.mem s = m s) rfl
    fun op hop st st' o hst hstep => ?_
  obtain ⟨n, hn⟩ := List.mem_iff_getElem?.1 hop
  have hso : s ∉ op.outs := fun hso => hs n ⟨op, hn, hso⟩
  rw [forwardOp_frame (Op.cached_eq_false (hg.noPrimal op hop))
    (fun t _ => congrFun (Graph.bind_home hg.noPrimal) t) hstep hso, hst]

/-- Two evaluations from arenas that agree on the slots no op writes. -/
lemma sameEvaluation [AddCommMonoid V] (hg : SelfContained g) {m m' : Arena V} (w : W)
    (hm : ∀ s, (∀ j, ¬ Writes g.ops s j) → m' s = m s) :
    SameEvaluation K g (g.forward K m w) (g.forward K m' w) := by
  obtain ⟨herr, hlog, js, ⟨n, hjs, hag⟩, hnil⟩ := Machine.run_lockstep (M := forwardMachine K g.bind)
    (N := forwardMachine K g.bind) (R := fun rest σ τ => ∃ n, g.ops.drop n = rest ∧ Agree g n σ τ)
    (s := ⟨m, w, fun _ => none⟩) (t := ⟨m', w, fun _ => none⟩) (fun op rest σ τ ⟨n, hrest, h⟩ => by
      rcases hg.step (K := K) (drop_succ_eq hrest).1 h with herr | ⟨σ', τ', o, hσ, hτ, h'⟩
      · exact .inl herr
      · exact .inr ⟨σ', τ', o, hσ, hτ, n + 1, (drop_succ_eq hrest).2, h'⟩)
    ⟨0, rfl, rfl, fun s hs e _ => congrFun (hm s fun j hj => by
      obtain ⟨i, hi, -⟩ := hs j hj
      omega) e⟩
  have hread : (g.forward K m w).error = none → ∀ s,
      g.bind.read (g.forward K m' w).state.mem s = g.bind.read (g.forward K m w).state.mem s := by
    intro hok s
    obtain rfl := hnil hok
    have hlen := List.drop_eq_nil_iff.1 hjs
    refine Binding.read_eq_read rfl fun e hel => ?_
    rw [Graph.bind_home hg.noPrimal]
    refine hag.cell s (fun j hj => ⟨j, ?_, hj⟩) e hel
    obtain ⟨o, ho, -⟩ := hj
    have := (List.getElem?_eq_some_iff.1 ho).1
    omega
  exact ⟨herr, hlog, hag.world, hread, fun hok seed => Graph.reverse_congr hlog (hread hok) seed⟩

/-- No evaluation of such a graph sees an earlier one. -/
theorem stateless [AddCommMonoid V] (hg : SelfContained g) (fills : Fills V) : g.Stateless K fills := by
  intro θ w k
  refine hg.sameEvaluation _ fun s hs => ?_
  unfold Graph.setParams Graph.arena
  have hkeep : ∀ k, ∀ s, (∀ j, ¬ Writes g.ops s j) → g.isParam s = false →
      (g.session K fills θ w k).1 s = Fills.apply fills (fun _ _ => 0) s := by
    intro k
    induction k with
    | zero => exact fun s _ _ => rfl
    | succ k ih =>
      intro s hs hp
      refine (hg.forward_frame hs _ _).trans ?_
      rw [Graph.setParams, hp, if_neg (by simp)]
      exact ih s hs hp
  by_cases hp : g.isParam s = true
  · rw [if_pos hp, if_pos hp]
  · rw [if_neg hp, if_neg hp]
    exact hkeep k s hs (by simpa using hp)

end SelfContained

end Stanli
