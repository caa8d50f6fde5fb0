import Stanli.Passes.ConstFold

/-!
# Folding preserves the forward sweep

A slot that a folded op writes has no other writer.  So the sweep of the graph and the run of the
folded ops alone agree on every slot that no surviving op has written (`FoldRelated`), and when a
surviving op reads a folded slot the run of the folded ops is done with it.
-/

namespace Stanli

variable {U V S W : Type*}

/-- The graphs the pass is for: after its first write a slot is only written by ops that update it in
place (a parameter is written when the evaluation starts), ops stay inside their buffers, and there
are no cached primals. -/
structure FoldGraph (g : Graph U) : Prop where
  rewrites : ∀ (i : ℕ) (op : Op U) (s : ℕ), g.ops[i]? = some op → s ∈ op.outs →
    (g.isParam s = true ∨ ∃ j < i, Writes g.ops s j) → s = op.out ∧ s ∈ op.ins
  inBounds : ∀ op ∈ g.ops, op.InBounds g.len
  noPrimal : ∀ op ∈ g.ops, op.primalSource = none

/-- Graphs that write every slot once, and no parameter. -/
lemma FoldGraph.of_fresh {g : Graph U}
    (hfresh : g.ops.Pairwise fun o o' => ∀ s ∈ o.outs, s ∉ o'.outs)
    (hparam : ∀ op ∈ g.ops, ∀ s ∈ op.outs, g.isParam s = false)
    (hbounds : ∀ op ∈ g.ops, op.InBounds g.len) (hprimal : ∀ op ∈ g.ops, op.primalSource = none) :
    FoldGraph g := by
  refine ⟨fun i op s hop hs h => ?_, hbounds, hprimal⟩
  rcases h with hp | ⟨j, hji, o, ho, hso⟩
  · rw [hparam op (List.mem_of_getElem? hop) s hs] at hp
    cases hp
  · obtain ⟨hi, rfl⟩ := List.getElem?_eq_some_iff.1 hop
    obtain ⟨hj, rfl⟩ := List.getElem?_eq_some_iff.1 ho
    exact absurd hs (List.pairwise_iff_getElem.1 hfresh j i hj hi hji s hso)

section Marks

variable {K : Kernels U V S W} {g : Graph U} {marks : List Bool} {i : ℕ} {op : Op U}

lemma ConstMarks.isConst_lt (h : ConstMarks K g marks) (hop : g.ops[i]? = some op) :
    marks[i]? = some true ∨ marks[i]? = some false := by
  have hi : i < marks.length := h.length ▸ (List.getElem?_eq_some_iff.1 hop).1
  rw [List.getElem?_eq_getElem hi]
  cases marks[i] <;> simp

/-- No parameter reaches a folded op. -/
lemma ConstMarks.not_reaches (h : ConstMarks K g marks) (hi : ParamReaches g i) :
    marks[i]? = some false := by
  induction hi with
  | param hop hs hparam =>
    refine (h.isConst_lt hop).resolve_left fun hc => ?_
    rw [((h.const _ _ hop hc).2.2 _ hs).1] at hparam
    cases hparam
  | write hop hs hji ho hso _ ih =>
    refine (h.isConst_lt hop).resolve_left fun hc => ?_
    exact ((h.const _ _ hop hc).2.2 _ hs).2 _ _ hji ho ih hso

/-- A slot a folded op writes is not a parameter, and no surviving op writes it. -/
lemma ConstMarks.folded_slot (h : ConstMarks K g marks) (hg : FoldGraph g)
    (hop : g.ops[i]? = some op) (hc : marks[i]? = some true) {s : ℕ} (hs : s ∈ op.outs) :
    g.isParam s = false ∧ ∀ (j : ℕ) (o : Op U), g.ops[j]? = some o → marks[j]? = some false →
      s ∉ o.outs := by
  obtain ⟨-, -, hin⟩ := h.const i op hop hc
  constructor
  · by_contra hp
    rw [Bool.not_eq_false] at hp
    have := (hin s (hg.rewrites i op s hop hs (.inl hp)).2).1
    rw [hp] at this
    cases this
  · intro j o ho hcj hso
    rcases Nat.lt_trichotomy j i with hji | rfl | hij
    · -- the folded op would update what a surviving op has written
      have hsin := (hg.rewrites i op s hop hs (.inr ⟨j, hji, o, ho, hso⟩)).2
      exact (hin s hsin).2 j o hji ho hcj hso
    · rw [hc] at hcj
      cases hcj
    · -- the surviving op would update a folded slot
      obtain ⟨hout, hsin⟩ := hg.rewrites j o s ho hso (.inr ⟨i, hij, op, hop, hs⟩)
      exact (h.reads j o i op s ho hcj hsin hop hc hs).2 hout

end Marks

/-! ## Running the folded ops -/

lemma mem_foldedOps {g : Graph U} {marks : List Bool} {op : Op U} :
    op ∈ foldedOps g marks ↔ ∃ i : ℕ, g.ops[i]? = some op ∧ marks[i]? = some true := mem_applyMask

lemma mem_touchedSlots {g : Graph U} {marks : List Bool} {s : ℕ} :
    s ∈ touchedSlots g marks ↔ ∃ op ∈ foldedOps g marks, s ∈ op.ins ∨ s ∈ op.outs := by
  simp [touchedSlots, List.mem_eraseDups]

/-- The sub-graph runs like the folded ops in the graph's own numbering, from the fills alone. -/
lemma runConstants_eq_some [Zero V] {K : Kernels U V S W} {w₀ : W} {g : Graph U} {marks : List Bool}
    {fills : Fills V} {m : Arena V} (hm : ConstMarks K g marks) (hg : FoldGraph g)
    (h : runConstants K w₀ g marks fills = some m) :
    ((pureMachine K g.bind).run (foldedOps g marks) (Fills.apply fills fun _ _ => 0)).error = none ∧
      ∀ s ∈ touchedSlots g marks,
        ((pureMachine K g.bind).run (foldedOps g marks) (Fills.apply fills fun _ _ => 0)).state s =
          m s := by
  set touched := touchedSlots g marks with htouched
  set sub := constGraph g marks with hsub
  have hmem : ∀ op ∈ foldedOps g marks, op ∈ g.ops := by
    intro op hop
    obtain ⟨i, hi, -⟩ := mem_foldedOps.1 hop
    exact List.mem_of_getElem? hi
  have hops : sub.ops = (foldedOps g marks).map (Op.rename fun s => touched.idxOf s) := rfl
  have hsp : ∀ op ∈ sub.ops, op.primalSource = none ∧ K.hasEffect op.call = false := by
    intro op hop
    rw [hops, List.mem_map] at hop
    obtain ⟨o, ho, rfl⟩ := hop
    obtain ⟨i, hi, hci⟩ := mem_foldedOps.1 ho
    exact ⟨hg.noPrimal o (hmem o ho), (hm.const i o hi hci).2.1⟩
  have hidx : ∀ s ∈ touched, sub.slots[touched.idxOf s]? = some ⟨g.len s, false⟩ := by
    intro s hs
    have hlt : touched.idxOf s < touched.length := List.idxOf_lt_length_iff.2 hs
    have : sub.slots = touched.map fun s => ⟨g.len s, false⟩ := rfl
    rw [this, List.getElem?_map, List.getElem?_eq_getElem hlt, List.getElem_idxOf]
    rfl
  have hinj : ∀ x y, x ∈ touched → y ∈ touched → touched.idxOf x = touched.idxOf y → x = y :=
    fun x y hx _ h => (List.idxOf_inj hx).1 h
  have hrun := forwardMachine_run_pure (K := K) (b := sub.bind) (fun op hop => (hsp op hop).1)
    (fun op hop => (hsp op hop).2)
    (sub.arena (constFills g marks fills) fun _ _ => 0) w₀ fun _ => none
  have harena : ∀ s, s ∈ touched → sub.arena (constFills g marks fills) (fun _ _ => 0)
      (touched.idxOf s) = Fills.apply fills (fun _ _ => 0) s := by
    intro s hs
    have hp : sub.isParam (touched.idxOf s) = false := by simp [Graph.isParam, hidx s hs]
    rw [Graph.arena, hp, if_neg (by simp)]
    refine Fills.apply_congr ?_ rfl
    unfold constFills
    rw [List.filter_map, List.map_map, ← htouched, List.filter_filter]
    have hfilter : (fills.filter fun f => ((fun f : ℕ × List V => decide (f.1 = touched.idxOf s)) ∘
        fun f : ℕ × List V => (touched.idxOf f.1, f.2)) f && decide (f.1 ∈ touched)) =
        fills.filter fun f => decide (f.1 = s) := by
      refine List.filter_congr fun f _ => ?_
      rw [Bool.eq_iff_iff]
      simp only [Function.comp_apply, Bool.and_eq_true, decide_eq_true_eq]
      constructor
      · rintro ⟨h, hf⟩
        exact hinj _ _ hf hs h
      · rintro rfl
        exact ⟨rfl, hs⟩
    rw [hfilter]
    rfl
  obtain ⟨herr, hstate⟩ := pureMachine_rename (K := K) (t := fun s => s ∈ touched)
    (Graph.bind_home hg.noPrimal) (Graph.bind_home fun op hop => (hsp op hop).1) hinj
    (fun s hs => by rw [Graph.bind_len, Graph.bind_len, Graph.len, hidx s hs]; rfl)
    (fun op hop => hg.inBounds op (hmem op hop))
    (fun op hop => ⟨fun s hs => mem_touchedSlots.2 ⟨op, hop, .inl hs⟩,
      fun s hs => mem_touchedSlots.2 ⟨op, hop, .inr hs⟩⟩) harena
  rw [← hops] at herr hstate
  cases he : ((pureMachine K sub.bind).run sub.ops
    (sub.arena (constFills g marks fills) fun _ _ => 0)).error with
  | some e =>
    simp only [runConstants, ← hsub, Graph.forward, hrun, he] at h
    split_ifs at h
  | none =>
    rw [he] at herr
    refine ⟨herr.symm, fun s hs => ?_⟩
    rw [← hstate herr.symm s hs]
    simp only [runConstants, ← hsub, Graph.forward, hrun, he] at h
    split_ifs at h
    rw [← Option.some.inj h]

/-! ## The sweeps in step -/

/-- A folded op writes the slot. -/
def FoldedSlot (g : Graph U) (marks : List Bool) (s : ℕ) : Prop :=
  ∃ (i : ℕ) (op : Op U), g.ops[i]? = some op ∧ marks[i]? = some true ∧ s ∈ op.outs

/-- No surviving op before op `n` writes the slot, which is not a parameter. -/
def Untouched (g : Graph U) (marks : List Bool) (n s : ℕ) : Prop :=
  g.isParam s = false ∧ ∀ (j : ℕ) (o : Op U), j < n → g.ops[j]? = some o → marks[j]? = some false →
    s ∉ o.outs

/-- The sweeps before op `n`, beside the run of the folded ops alone, which has reached `κ` and will
reach `m`. -/
structure FoldRelated (K : Kernels U V S W) (g : Graph U) (marks : List Bool) (roots : List ℕ)
    (m : Arena V) (n : ℕ) (κ : Arena V) (σ τ : SweepState V S W) : Prop where
  world : τ.world = σ.world
  run : ((pureMachine K g.bind).run (applyMask (marks.drop n) (g.ops.drop n)) κ).error = none ∧
    ∀ s ∈ touchedSlots g marks,
      ((pureMachine K g.bind).run (applyMask (marks.drop n) (g.ops.drop n)) κ).state s = m s
  untouched : ∀ s, Untouched g marks n s → σ.mem s = κ s
  other : ∀ s, ¬ FoldedSlot g marks s → ∀ e < g.len s, τ.mem s e = σ.mem s e
  folded : ∀ s, FoldedSlot g marks s → foldNeeds g marks roots s = true → ∀ e < g.len s,
    τ.mem s e = m s e

namespace FoldRelated

variable {K : Kernels U V S W} {g : Graph U} {marks : List Bool} {roots : List ℕ} {m κ : Arena V}
  {n : ℕ} {σ τ : SweepState V S W} {op : Op U} {b' : Binding}

lemma foldedSlot_untouched (hm : ConstMarks K g marks) (hg : FoldGraph g) {s : ℕ}
    (hs : FoldedSlot g marks s) : Untouched g marks n s := by
  obtain ⟨i, o, ho, hci, hso⟩ := hs
  obtain ⟨hp, hw⟩ := hm.folded_slot hg ho hci hso
  exact ⟨hp, fun j o' _ => hw j o'⟩

lemma not_foldedSlot (hm : ConstMarks K g marks) (hg : FoldGraph g) (hop : g.ops[n]? = some op)
    (hc : marks[n]? = some false) {s : ℕ} (hs : s ∈ op.outs) : ¬ FoldedSlot g marks s := by
  rintro ⟨i, o, ho, hci, hso⟩
  exact (hm.folded_slot hg ho hci hso).2 n op hop hc hs

/-- When the folded ops are done with a slot, it has its final value. -/
lemma eq_final (h : FoldRelated K g marks roots m n κ σ τ) (hm : ConstMarks K g marks) (hg : FoldGraph g)
    {s : ℕ} (hs : FoldedSlot g marks s)
    (hlast : ∀ (j : ℕ) (o : Op U), g.ops[j]? = some o → marks[j]? = some true → s ∈ o.outs → j < n) :
    σ.mem s = m s := by
  have htouched : s ∈ touchedSlots g marks := by
    obtain ⟨i, o, ho, hci, hso⟩ := hs
    exact mem_touchedSlots.2 ⟨o, mem_foldedOps.2 ⟨i, ho, hci⟩, .inr hso⟩
  rw [h.untouched s (foldedSlot_untouched hm hg hs), ← h.run.2 s htouched]
  refine (pureMachine_run_frame (Graph.bind_home hg.noPrimal) (fun o ho hso => ?_) κ).symm
  obtain ⟨i, hi, hci⟩ := mem_applyMask.1 ho
  rw [List.getElem?_drop] at hi hci
  have := hlast (n + i) o hi hci hso
  omega

/-- The run of the folded ops before the next op. -/
lemma run_cons {rest : List (Op U)} {cs : List Bool} {b : Bool} (hc : marks.drop n = b :: cs)
    (hrest : g.ops.drop n = op :: rest) :
    applyMask (marks.drop n) (g.ops.drop n) =
      if b then op :: applyMask (marks.drop (n + 1)) (g.ops.drop (n + 1))
      else applyMask (marks.drop (n + 1)) (g.ops.drop (n + 1)) := by
  rw [hc, hrest, (drop_succ_eq hc).2, (drop_succ_eq hrest).2]
  cases b <;> rfl

/-- A folded op: the sweep of the graph runs it like the run of the folded ops does. -/
lemma step_folded (h : FoldRelated K g marks roots m n κ σ τ) (hm : ConstMarks K g marks)
    (hg : FoldGraph g) {rest : List (Op U)} {cs : List Bool} (hc : marks.drop n = true :: cs)
    (hrest : g.ops.drop n = op :: rest) :
    ∃ κ' σ' o, forwardOp K g.bind op σ = .ok (σ', o) ∧
      FoldRelated K g marks roots m (n + 1) κ' σ' τ := by
  have hop := (drop_succ_eq hrest).1
  have hcn := (drop_succ_eq hc).1
  have hhome := Graph.bind_home hg.noPrimal
  obtain ⟨-, heff, hin⟩ := hm.const n op hop hcn
  have hpair : ∀ s, s ∈ op.ins ∨ s ∈ op.outs → σ.mem (id s) = κ s := by
    rintro s (hs | hs)
    · exact h.untouched s ⟨(hin s hs).1, fun j o => (hin s hs).2 j o⟩
    · exact h.untouched s (foldedSlot_untouched hm hg ⟨n, op, hop, hcn, hs⟩)
  have hmem := List.mem_of_getElem? hop
  obtain ⟨hrun, hfinal⟩ := h.run
  rw [run_cons hc hrest, if_pos rfl] at hrun hfinal
  rcases @pureOp_rename U V S W K g.bind g.bind id op κ σ.mem (fun s => s ∈ op.ins ∨ s ∈ op.outs)
    (hg.inBounds op hmem) hhome hhome (fun _ _ _ _ h => h) (fun _ => .inl) (fun _ => .inr)
    (fun _ _ => rfl) hpair with ⟨e, he, -⟩ | ⟨κ', o, μ, o', hκ, hμ, hagree⟩
  · rw [Machine.run_cons_error (M := pureMachine K g.bind) he] at hrun
    cases hrun
  · rw [Machine.run_cons_ok (M := pureMachine K g.bind) hκ] at hrun hfinal
    rw [Op.rename_id] at hμ
    refine ⟨κ', ⟨μ, σ.world, σ.shared⟩, o', ?_, h.world, ⟨hrun, hfinal⟩, fun s hs => ?_,
      fun s hs e hel => ?_, h.folded⟩
    · rw [forwardOp_pure (hg.noPrimal op hmem) heff, hμ]
      rfl
    · by_cases hso : s ∈ op.outs
      · exact hagree s (.inr hso)
      · change μ s = κ' s
        rw [pureOp_frame hhome hμ hso, pureOp_frame hhome hκ hso]
        exact h.untouched s ⟨hs.1, fun j o' hj => hs.2 j o' (by omega)⟩
    · have hso : s ∉ op.outs := fun hso => hs ⟨n, op, hop, hcn, hso⟩
      rw [h.other s hs e hel]
      change σ.mem s e = μ s e
      rw [pureOp_frame hhome hμ hso]

/-- What a surviving op reads. -/
lemma read_eq (h : FoldRelated K g marks roots m n κ σ τ) (hm : ConstMarks K g marks) (hg : FoldGraph g)
    (hop : g.ops[n]? = some op) (hc : marks[n]? = some false) {s : ℕ} (hs : s ∈ op.ins) :
    ∀ e < g.len s, τ.mem s e = σ.mem s e := by
  by_cases hf : FoldedSlot g marks s
  · have hneeds : foldNeeds g marks roots s = true := by
      have hmem : s ∈ (applyMask (marks.map not) g.ops).flatMap Op.ins := by
        refine List.mem_flatMap.2 ⟨op, mem_applyMask.2 ⟨n, hop, ?_⟩, hs⟩
        rw [List.getElem?_map, hc]
        rfl
      simp [foldNeeds, hmem]
    intro e hel
    rw [h.folded s hf hneeds e hel, h.eq_final hm hg hf]
    exact fun j o ho hcj hso => (hm.reads n op j o s hop hc hs ho hcj hso).1
  · exact h.other s hf

/-- A surviving op. -/
lemma step_survivor (h : FoldRelated K g marks roots m n κ σ τ) (hm : ConstMarks K g marks)
    (hg : FoldGraph g) (hlen : b'.len = g.len) (hhome' : b'.home = id) {rest : List (Op U)}
    {cs : List Bool} (hc : marks.drop n = false :: cs) (hrest : g.ops.drop n = op :: rest) :
    (∃ e, forwardOp K g.bind op σ = .error e ∧ forwardOp K b' op τ = .error e) ∨
    ∃ σ' o τ' o', forwardOp K g.bind op σ = .ok (σ', o) ∧ forwardOp K b' op τ = .ok (τ', o') ∧
      o'.inputs = o.inputs ∧ FoldRelated K g marks roots m (n + 1) κ σ' τ' := by
  have hop := (drop_succ_eq hrest).1
  have hcn := (drop_succ_eq hc).1
  have hmem := List.mem_of_getElem? hop
  have hid : op.mapIns id = op := by simp [Op.mapIns]
  have hpair := @forwardOp_mapIns_pair U V S W K g.bind b' op id σ τ (hg.noPrimal op hmem)
    (hg.inBounds op hmem) (Graph.bind_home hg.noPrimal) (fun t _ => congrFun hhome' t)
    (fun s _ => by rw [hlen]; rfl) (fun s _ => by rw [hlen]; rfl)
    (fun s hs => by rw [hhome']; exact h.read_eq hm hg hop hcn hs)
    (fun _ e he _ => h.other _ (not_foldedSlot hm hg hop hcn (by simp)) e he) h.world
  rw [hid] at hpair
  rcases hpair with herr | ⟨σ', o, τ', o', hσ, hτ, hp⟩
  · exact .inl herr
  · obtain ⟨hrun, hfinal⟩ := h.run
    rw [run_cons hc hrest, if_neg (by simp)] at hrun hfinal
    refine .inr ⟨σ', o, τ', o', hσ, hτ, hp.inputs, hp.world, ⟨hrun, hfinal⟩, fun s hs => ?_,
      fun s hs e hel => ?_, fun s hs hn e hel => ?_⟩
    · have hso : s ∉ op.outs := hs.2 n op (by omega) hop hcn
      rw [(hp.frame s hso).1]
      exact h.untouched s ⟨hs.1, fun j o hj => hs.2 j o (by omega)⟩
    · by_cases hso : s ∈ op.outs
      · exact hp.outs s hso e hel
      · rw [(hp.frame s hso).1, (hp.frame s hso).2]
        exact h.other s hs e hel
    · have hso : s ∉ op.outs := fun hso => not_foldedSlot hm hg hop hcn hso hs
      rw [(hp.frame s hso).2]
      exact h.folded s hs hn e hel

end FoldRelated

/-! ## The result -/

/-- What `const_fold` preserves, from a fresh executor at the parameters `θ`: `mask` tells which ops
survive.  The sweep is the same for these, the roots and the effects; no parameter reaches an op that
is gone; and a surviving op reads a slot such an op writes only after all writes of it. -/
structure ConstFoldPreserves [Zero V] (K : Kernels U V S W) (w₀ : W) (g : Graph U)
    (fills : Fills V) (roots : List ℕ) (mask : List Bool) (θ : Arena V) (w : W) : Prop where
  ops_eq : (constFold K w₀ g fills roots).graph.ops = applyMask mask g.ops
  forward : g.ForwardPreserved K (constFold K w₀ g fills roots).graph roots mask
    (g.arena fills θ) ((constFold K w₀ g fills roots).graph.arena
      (constFold K w₀ g fills roots).fills θ) w
  unreached : ∀ i, ParamReaches g i → mask[i]? = some true
  final_reads : ∀ i op s, g.ops[i]? = some op → mask[i]? = some true → s ∈ op.ins →
    FoldedSlot g (mask.map not) s → ∀ j, Writes g.ops s j → j < i
  throws : runConstants K w₀ g (markConstantOps K g) fills = none →
    constFold K w₀ g fills roots = ⟨g, fills, 0, 0⟩

section Fresh

variable {g g' : Graph U} {marks : List Bool} {roots : List ℕ} {fills : Fills V} {m θ : Arena V}

lemma mem_newFills {f : ℕ × List V} : f ∈ newFills g marks roots m ↔
    FoldedSlot g marks f.1 ∧ foldNeeds g marks roots f.1 = true ∧
      f.2 = (List.range (g.len f.1)).map (m f.1) := by
  have hslot : ∀ s, s ∈ (foldedOps g marks).flatMap Op.outs ↔ FoldedSlot g marks s := by
    intro s
    simp only [List.mem_flatMap, mem_foldedOps, FoldedSlot]
    constructor
    · rintro ⟨op, ⟨i, hi, hc⟩, hs⟩
      exact ⟨i, op, hi, hc, hs⟩
    · rintro ⟨i, op, hi, hc, hs⟩
      exact ⟨op, ⟨i, hi, hc⟩, hs⟩
  simp only [newFills, List.mem_map, List.mem_filter, List.mem_eraseDups, hslot]
  constructor
  · rintro ⟨s, ⟨h1, h2⟩, rfl⟩
    exact ⟨h1, h2, rfl⟩
  · rintro ⟨h1, h2, h3⟩
    exact ⟨f.1, ⟨h1, h2⟩, by rw [← h3]⟩

/-- What a fresh executor of the folded graph starts from. -/
lemma arena_foldedFills [Zero V] (hpar : g'.isParam = g.isParam) (s : ℕ) :
    (¬ FoldedSlot g marks s → g'.arena (foldedFills fills (newFills g marks roots m)) θ s =
      g.arena fills θ s) ∧
    (g.isParam s = false → FoldedSlot g marks s → foldNeeds g marks roots s = true → ∀ e < g.len s,
      g'.arena (foldedFills fills (newFills g marks roots m)) θ s e = m s e) := by
  unfold Graph.arena
  rw [hpar]
  constructor
  · intro hs
    by_cases hp : g.isParam s = true
    · rw [if_pos hp, if_pos hp]
    rw [if_neg hp, if_neg hp]
    refine Fills.apply_congr (congrArg (List.map Prod.snd) ?_) rfl
    have hnew : ∀ f ∈ newFills g marks roots m, f.1 ≠ s := fun f hf heq =>
      hs (heq ▸ (mem_newFills.1 hf).1)
    have hnil : (newFills g marks roots m).filter (fun f => decide (f.1 = s)) = [] := by
      rw [List.filter_eq_nil_iff]
      intro f hf
      simpa using hnew f hf
    rw [foldedFills, List.filter_append, hnil, List.append_nil, List.filter_filter]
    refine List.filter_congr fun f _ => ?_
    by_cases hfs : f.1 = s
    · have hmem : f.1 ∉ (newFills g marks roots m).map Prod.fst := by
        rintro hmem
        obtain ⟨f', hf', heq⟩ := List.mem_map.1 hmem
        exact hnew f' hf' (heq.trans hfs)
      simp [hfs ▸ hmem, hfs]
    · simp [hfs]
  · intro hp hs hn e hel
    rw [hp, if_neg (by simp)]
    have hmem : ((s, (List.range (g.len s)).map (m s)) : ℕ × List V) ∈ newFills g marks roots m :=
      mem_newFills.2 ⟨hs, hn, rfl⟩
    refine Fills.apply_of_forall (fun f hf hfs => ?_)
      (.inl ⟨_, List.mem_append.2 (.inr hmem), rfl⟩)
    rcases List.mem_append.1 hf with hf | hf
    · -- a fill that is kept is not of a folded slot
      have := (List.mem_filter.1 hf).2
      simp only [Bool.not_eq_true', decide_eq_false_iff_not] at this
      exact absurd (List.mem_map.2 ⟨_, hmem, hfs.symm⟩) this
    · rw [(mem_newFills.1 hf).2.2, hfs]
      simp [hel]

end Fresh

/-- `const_fold` preserves the forward sweep. -/
theorem constFold_preserves [Zero V] (K : Kernels U V S W) (w₀ : W) (g : Graph U)
    (hg : FoldGraph g) (fills : Fills V) (roots : List ℕ) :
    ∃ mask, ∀ θ w, ConstFoldPreserves K w₀ g fills roots mask θ w := by
  have hm := markConstantOps_marks K g
  set marks := markConstantOps K g with hc
  have hthrows : runConstants K w₀ g marks fills = none →
      constFold K w₀ g fills roots = ⟨g, fills, 0, 0⟩ := by
    intro h
    simp only [constFold, ← hc, h, ite_self]
  have hreach : ∀ i, ParamReaches g i → i < g.ops.length := by
    rintro i (⟨hop, -, -⟩ | ⟨hop, -, -, -, -, -⟩) <;> exact (List.getElem?_eq_some_iff.1 hop).1
  by_cases hfold : constFold K w₀ g fills roots = ⟨g, fills, 0, 0⟩
  · -- nothing was folded
    refine ⟨List.replicate g.ops.length true, fun θ w => ⟨?_, ?_, fun i hi => ?_,
      fun i op s _ _ _ hs => ?_, hthrows⟩⟩
    · rw [hfold, applyMask_replicate_true]
    · rw [hfold]
      exact Graph.ForwardPreserved.refl K g roots (g.arena fills θ) w
    · rw [List.getElem?_replicate, if_pos (hreach i hi)]
    · obtain ⟨j, o, -, hj, -⟩ := hs
      rw [List.map_replicate, List.getElem?_replicate] at hj
      split_ifs at hj
      cases hj
  obtain ⟨m, hrun, heq⟩ : ∃ m, runConstants K w₀ g marks fills = some m ∧
      constFold K w₀ g fills roots = { graph := { g with ops := applyMask (marks.map not) g.ops }
                                       fills := foldedFills fills (newFills g marks roots m)
                                       opsRemoved := (foldedOps g marks).length
                                       slotsFolded := (newFills g marks roots m).length } := by
    simp only [constFold, ← hc] at hfold ⊢
    by_cases hall : marks.all not = true
    · simp [hall] at hfold
    · cases hr : runConstants K w₀ g marks fills with
      | none => simp [hr] at hfold
      | some m => exact ⟨m, rfl, by simp only [hall, Bool.false_eq_true, if_false]⟩
  obtain ⟨herr, hstate⟩ := runConstants_eq_some hm hg hrun
  refine ⟨marks.map not, fun θ w => ⟨by rw [heq], ?_, fun i hi => ?_, fun i op s hop hi hs hf => ?_,
    hthrows⟩⟩
  · rw [heq]
    set g' : Graph U := { g with ops := applyMask (marks.map not) g.ops } with hg'
    have hhome' : g'.bind.home = id := Graph.bind_home fun op hop => by
      obtain ⟨i, hi, -⟩ := mem_applyMask.1 hop
      exact hg.noPrimal op (List.mem_of_getElem? hi)
    obtain ⟨hrunEq, hmask⟩ := Rewriter.eraser_run (ι := Op U) hm.length
    unfold Graph.ForwardPreserved Graph.forward
    rw [← hmask]
    change Rewriter.Simulated _ _ _ _ ((forwardMachine K g'.bind).run (applyMask (marks.map not) g.ops) _)
    rw [← hrunEq]
    refine Rewriter.run_simulates _ (R := fun cs rest σ τ => ∃ n κ, marks.drop n = cs ∧
      g.ops.drop n = rest ∧ FoldRelated K g marks roots m n κ σ τ) ?_ ?_ ?_ ?_
    · rintro cs σ τ ⟨n, κ, rfl, hrest, h⟩
      refine ⟨h.world, fun r hr => Binding.read_eq_read rfl fun e hel => ?_⟩
      rw [Graph.bind_home hg.noPrimal, hhome', id_eq]
      by_cases hf : FoldedSlot g marks r
      · have hneeds : foldNeeds g marks roots r = true := by
          simp only [Graph.isRoot, Bool.or_eq_true] at hr
          simp only [foldNeeds, Bool.or_eq_true]
          tauto
        rw [h.folded r hf hneeds e hel, h.eq_final hm hg hf]
        intro j o ho _ _
        have := List.drop_eq_nil_iff.1 hrest
        have := (List.getElem?_eq_some_iff.1 ho).1
        omega
      · exact h.other r hf e hel
    · rintro cs op k rest σ τ hk ⟨n, κ, rfl, hrest, h⟩
      cases hcs : marks.drop n with
      | nil =>
        have h1 := List.drop_eq_nil_iff.1 hcs
        have h2 := (List.getElem?_eq_some_iff.1 (drop_succ_eq hrest).1).1
        have := hm.length
        omega
      | cons b cs =>
        cases b with
        | true => simp [Rewriter.eraser, hcs] at hk
        | false =>
          obtain rfl : op = k := by simpa [Rewriter.eraser, hcs] using hk
          rcases h.step_survivor hm hg (show g'.bind.len = g.len from rfl) hhome' hcs hrest with
            herr | ⟨σ', o, τ', o', hσ, hτ, hin, h'⟩
          · exact .inl herr
          · exact .inr ⟨σ', o, τ', o', hσ, hτ, hin, n + 1, κ, (drop_succ_eq hcs).2,
              (drop_succ_eq hrest).2, h'⟩
    · rintro cs op rest σ τ hk ⟨n, κ, rfl, hrest, h⟩
      cases hcs : marks.drop n with
      | nil => simp [Rewriter.eraser, hcs] at hk
      | cons b cs =>
        cases b with
        | false => simp [Rewriter.eraser, hcs] at hk
        | true =>
          obtain ⟨κ', σ', o, hσ, h'⟩ := h.step_folded hm hg hcs hrest
          exact ⟨σ', o, hσ, n + 1, κ', (drop_succ_eq hcs).2, (drop_succ_eq hrest).2, h'⟩
    · refine ⟨0, Fills.apply fills fun _ _ => 0, rfl, rfl, rfl, ⟨herr, hstate⟩, fun s hs => ?_,
        fun s hs e _ => ?_, fun s hs hn e hel => ?_⟩
      · exact if_neg (by simp [hs.1])
      · exact congrFun ((arena_foldedFills rfl s).1 hs) e
      · obtain ⟨i, op, hop, hci, hso⟩ := hs
        exact (arena_foldedFills rfl s).2 (hm.folded_slot hg hop hci hso).1
          ⟨i, op, hop, hci, hso⟩ hn e hel
  · rw [List.getElem?_map, hm.not_reaches hi]
    rfl
  · have hci : marks[i]? = some false := by
      rw [List.getElem?_map] at hi
      cases hci : marks[i]? with
      | none => simp [hci] at hi
      | some b =>
        rw [hci] at hi
        cases b
        · rfl
        · cases hi
    have hmap : (marks.map not).map not = marks := by
      rw [List.map_map]
      exact (List.map_congr_left fun b _ => Bool.not_not b).trans (List.map_id marks)
    rw [hmap] at hf
    obtain ⟨i', o', ho', hci', hso'⟩ := hf
    rintro j ⟨o, ho, hso⟩
    refine (hm.reads i op j o s hop hci hs ho ?_ hso).1
    exact (hm.isConst_lt ho).resolve_right fun hcj =>
      (hm.folded_slot hg ho' hci' hso').2 j o ho hcj hso

/-- Element stores into a data vector, the second one of a parameter. -/
def halfConstantGraph : Graph Unit where
  slots := [⟨2, false⟩, ⟨1, false⟩, ⟨1, true⟩, ⟨2, false⟩, ⟨2, false⟩, ⟨1, false⟩]
  ops :=
    [{ opcode := .setIndex, out := 3, ins := [0, 1], idata := [0] },
     { opcode := .setIndex, out := 4, ins := [3, 2], idata := [1] },
     { opcode := .index, out := 5, ins := [4], idata := [0] }]
  resultSlot := some 5

/-- The first store is folded, and the sweep is the same. -/
theorem halfConstantGraph_preserves :
    ∃ mask, ∀ θ w, ConstFoldPreserves { Kernels.empty Unit ℤ Unit Unit with registered := fun _ => true }
      () halfConstantGraph [(1, [7])] [] mask θ w := by
  have hstore : ∀ op ∈ halfConstantGraph.ops, op.opcode.isStore = true →
      halfConstantGraph.validStoreContract op = true := by decide
  have hload : ∀ op ∈ halfConstantGraph.ops, op.opcode = .index → op.out2 = none ∧
      op.input 0 ∈ op.ins ∧ (op.imm 0).toNat < halfConstantGraph.len (op.input 0) := by decide
  have hrouted : ∀ op ∈ halfConstantGraph.ops, op.opcode.isStore = true ∨ op.opcode = .index := by
    decide
  refine constFold_preserves _ _ _ (FoldGraph.of_fresh (by decide) (by decide) (fun op hop => ?_)
    (by decide)) _ _
  rcases hrouted op hop with hs | hi
  · exact (Graph.storeContract_of_valid (hstore op hop hs)).inBounds hs
  · exact Op.inBounds_of_load hi (hload op hop hi)

end Stanli
