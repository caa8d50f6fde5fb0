import Stanli.Graph.Adjoint
import Stanli.Passes.Inplace

/-!
# Destructive updates preserve a gradient evaluation

At each op the slots that are defined and not stale stand for distinct slots of the rewritten graph.
Forward, these hold the same values (`InplaceRelated`); backward, they hold the same adjoints, while
the adjoint of a stale slot is still zero (`AdjointRelated`).
-/

namespace Stanli

variable {U V S W : Type*}

/-! ## Positions of the scan -/

/-- The scan before op `n`, on the way to its final state `pf`. -/
structure ScanAt (g : Graph U) (isRoot : ℕ → Bool) (pf : InplaceScan × (ℕ → Bool)) (n : ℕ)
    (p : InplaceScan × (ℕ → Bool)) (rest : List (Op U)) : Prop where
  inv : InplaceInv g isRoot n p.1 p.2
  rest_eq : g.ops.drop n = rest
  final_eq : (InplaceScan.ghost g isRoot).final p rest = pf

/-- The binding of the rewritten graph: a slot that is not dead is as long as it was and has an
adjoint if it had one, and every slot uses its own buffer. -/
structure LiveBinding (g : Graph U) (pf : InplaceScan × (ℕ → Bool)) (b : Binding) : Prop where
  len : ∀ s, pf.1.rename s = none → b.len s = g.len s
  home : b.home = id
  active : ∀ s, pf.1.rename s = none → b.active s = g.bind.active s

lemma not_eligible_of_kernel {g : Graph U} {isRoot : ℕ → Bool} {p : InplaceScan × (ℕ → Bool)}
    {op : Op U} (hr : op.opcode.isRouted = false) :
    p.1.eligible g isRoot op = false ∧ op.opcode.isInplaceStore = false := by
  have hform : op.opcode.inplaceForm = none := by
    revert hr
    cases op.opcode <;> decide
  refine ⟨by simp [InplaceScan.eligible, hform], ?_⟩
  simp only [Opcode.isRouted, Bool.or_eq_false_iff] at hr
  exact hr.2

namespace ScanAt

variable {g : Graph U} {isRoot : ℕ → Bool} {pf p : InplaceScan × (ℕ → Bool)} {n : ℕ} {op : Op U}
  {rest : List (Op U)} {b : Binding}

lemma op_eq (h : ScanAt g isRoot pf n p (op :: rest)) : g.ops[n]? = some op :=
  (drop_succ_eq h.rest_eq).1

lemma next (h : ScanAt g isRoot pf n p (op :: rest)) (hg : ProducerGraph g) :
    ScanAt g isRoot pf (n + 1) ((InplaceScan.ghost g isRoot).next p op) rest :=
  ⟨h.inv.step hg h.op_eq, (drop_succ_eq h.rest_eq).2, h.final_eq⟩

lemma start (hpf : (InplaceScan.ghost g isRoot).final (InplaceScan.start g, fun _ => false) g.ops =
    pf) : ScanAt g isRoot pf 0 (InplaceScan.start g, fun _ => false) g.ops :=
  ⟨InplaceInv.start, rfl, hpf⟩

/-- The slots that ops refer to are as long as the slots they stand for. -/
lemma len_resolve (h : ScanAt g isRoot pf n p rest) (hg : ProducerGraph g)
    (hb : LiveBinding g pf b) {s : ℕ} (hs : DefinedAt g.ops n s) :
    b.len (p.1.resolve s) = g.len s := by
  obtain ⟨hd, hn, hlen⟩ := h.inv.definedAt_resolve hg hs
  rw [hb.len, hlen]
  rw [← h.final_eq]
  exact h.inv.rename_final hg h.rest_eq hd hn

/-- A slot without another name is as long as it was. -/
lemma len_self (h : ScanAt g isRoot pf n p rest) (hg : ProducerGraph g) (hb : LiveBinding g pf b)
    {s : ℕ} (hs : DefinedAt g.ops n s) (hn : p.1.rename s = none) : b.len s = g.len s := by
  rw [hb.len]
  rw [← h.final_eq]
  exact h.inv.rename_final hg h.rest_eq hs hn

lemma rewrite_not_eligible (he : p.1.eligible g isRoot op = false)
    (hip : op.opcode.isInplaceStore = false) :
    p.1.rewrite g isRoot op = op.mapIns p.1.resolve := by
  have hal : InplaceScan.aliased op = false := by simp [InplaceScan.aliased, hip]
  simp [InplaceScan.rewrite, he, InplaceScan.renameOp, hal]

lemma next_not_eligible (he : p.1.eligible g isRoot op = false) :
    ((InplaceScan.ghost g isRoot).next p op).2 = p.2 ∧
      ((InplaceScan.ghost g isRoot).next p op).1.rename = p.1.rename ∧
      ((InplaceScan.ghost g isRoot).next p op).1.resolve = p.1.resolve := by
  simp only [InplaceScan.ghost, he, Bool.false_eq_true, if_false]
  rw [InplaceInv.step_not_eligible he]
  exact ⟨trivial, rfl, rfl⟩

/-- What op `n` produces is as long as it was, if it keeps its name. -/
lemma len_out (h : ScanAt g isRoot pf n p (op :: rest)) (hg : ProducerGraph g)
    (hb : LiveBinding g pf b) (he : p.1.eligible g isRoot op = false)
    (hip : op.opcode.isInplaceStore = false) {s : ℕ} (hs : s ∈ op.outs) : b.len s = g.len s := by
  have hprod : Producer g.ops s n := ⟨op, h.op_eq, hip, hs⟩
  refine (h.next hg).len_self hg hb (hg.definedAt_of_producer hprod (by omega)) ?_
  rw [(next_not_eligible he).2.1]
  exact (h.inv.rename_of_producer hg hprod).1

/-- What op `n` reads has an adjoint if the slot that stands for it has one. -/
lemma active_resolve (h : ScanAt g isRoot pf n p (op :: rest)) (hg : ProducerGraph g)
    (hb : LiveBinding g pf b) {s : ℕ} (hs : s ∈ op.ins) :
    b.active (p.1.resolve s) = g.bind.active s := by
  obtain ⟨hd, -⟩ := h.inv.read hg h.op_eq hs
  obtain ⟨hd', hn, -⟩ := h.inv.definedAt_resolve hg hd
  have hfinal := h.inv.rename_final hg h.rest_eq hd' hn
  rw [hb.active _ (h.final_eq ▸ hfinal)]
  cases hr : p.1.rename s with
  | none => rw [InplaceInv.resolve_of_none hr]
  | some v =>
    obtain ⟨-, -, -, -, -, -, ⟨j, -, hj⟩, j', -, hj'⟩ := h.inv.renamed s v hr
    rw [InplaceInv.resolve_of_some hr, hj.writes.active, hj'.writes.active]

/-- The buffers of an op whose backward rereads its values are not taken over later. -/
lemma buffers_kept (h : ScanAt g isRoot pf n p (op :: rest)) (hg : ProducerGraph g)
    (hr : op.opcode.isRouted = false) (hv : op.opcode.backwardIgnoresValues = false) {s : ℕ}
    (hs : s ∈ op.ins ∨ s ∈ op.outs) :
    pf.2 s = false ∧ pf.1.resolve s = p.1.resolve s := by
  obtain ⟨he, hip⟩ := @not_eligible_of_kernel U g isRoot p op hr
  obtain ⟨hz, -, hres⟩ := @next_not_eligible U g isRoot p op he
  have hform : op.opcode.inplaceForm = none := by
    revert hr
    cases op.opcode <;> decide
  have hal : InplaceScan.aliased op = false := by simp [InplaceScan.aliased, hip]
  have hren : p.1.renameOp op = op.mapIns p.1.resolve := by simp [InplaceScan.renameOp, hal]
  have hn := h.next hg
  have hnext : ((InplaceScan.ghost g isRoot).next p op).1 = p.1.step g isRoot op := rfl
  have hprot : DefinedAt g.ops (n + 1) s ∧ p.2 s = false ∧
      ((p.1.step g isRoot op).valueReader (p.1.resolve s) = true ∨
        (p.1.step g isRoot op).outputSafe (p.1.resolve s) = false) := by
    rw [InplaceInv.step_not_eligible he]
    rcases hs with hs | hs
    · obtain ⟨hd, hz⟩ := h.inv.read hg h.op_eq hs
      refine ⟨hd.mono (by omega), hz, .inl ?_⟩
      have hmem : p.1.resolve s ∈ op.ins.map p.1.resolve := List.mem_map_of_mem hs
      simp [hform, hv, hren, hmem]
    · have hp : Producer g.ops s n := ⟨op, h.op_eq, hip, hs⟩
      obtain ⟨hn, hz⟩ := h.inv.rename_of_producer hg hp
      refine ⟨hg.definedAt_of_producer hp (by omega), hz, .inr ?_⟩
      rw [InplaceInv.resolve_of_none hn]
      -- whatever the branch, the op's outputs are marked unsafe
      simp only [InplaceScan.markOutputs, hip, hv, Bool.false_and, Bool.and_false, hren,
        Op.mapIns_out, Bool.false_eq_true, if_false, ite_self]
      rcases Op.mem_outs.1 hs with rfl | h2
      · cases op.out2 <;> simp [Function.update_apply]
      · simp [h2]
  obtain ⟨hd, hzs, hvs⟩ := hprot
  rw [← hnext, ← hres] at hvs
  have := hn.inv.protected_final hg hn.rest_eq hd (hz ▸ hzs) hvs
  rwa [hn.final_eq, hres] at this

/-- An existing in-place store, both sides renamed. -/
lemma rewrite_inplace (hc : op.StoreContract g.len) (hip : op.opcode.isInplaceStore = true) :
    p.1.eligible g isRoot op = false ∧
      p.1.rewrite g isRoot op =
        { op.mapIns p.1.resolve with out := p.1.resolve op.out } := by
  have hform : op.opcode.inplaceForm = none := by
    revert hip
    cases op.opcode <;> decide
  have he : p.1.eligible g isRoot op = false := by simp [InplaceScan.eligible, hform]
  have hal : InplaceScan.aliased op = true := by
    simp [InplaceScan.aliased, hip, (hc.inplace hip).1, hc.ins_eq]
  have hin0 : (op.mapIns p.1.resolve).input 0 = p.1.resolve (op.input 0) :=
    Op.mapIns_input (by simp [hc.ins_eq])
  refine ⟨he, ?_⟩
  simp [InplaceScan.rewrite, he, InplaceScan.renameOp, hal, hin0, (hc.inplace hip).1]

/-- A store that is rewritten. -/
lemma rewrite_eligible (hc : op.StoreContract g.len) (he : p.1.eligible g isRoot op = true) :
    ∃ oc, op.opcode.inplaceForm = some oc ∧ p.1.rewrite g isRoot op =
      { op.mapIns p.1.resolve with opcode := oc, out := p.1.resolve (op.input 0) } := by
  obtain ⟨hcp, hren, -⟩ := InplaceInv.eligible_facts he
  have hin0 : (op.mapIns p.1.resolve).input 0 = p.1.resolve (op.input 0) :=
    Op.mapIns_input (by simp [hc.ins_eq])
  obtain ⟨oc, hoc⟩ : ∃ oc, op.opcode.inplaceForm = some oc := by
    revert hcp
    cases op.opcode <;> simp [Opcode.inplaceForm, Opcode.isCopyingStore]
  refine ⟨oc, hoc, ?_⟩
  simp [InplaceScan.rewrite, he, hren, hin0, hoc]

lemma next_eligible (h : ScanAt g isRoot pf n p (op :: rest)) (hg : ProducerGraph g)
    (he : p.1.eligible g isRoot op = true) :
    ((InplaceScan.ghost g isRoot).next p op).2 = Function.update p.2 (op.input 0) true ∧
      ∀ s, ((InplaceScan.ghost g isRoot).next p op).1.resolve s =
        if s = op.out then p.1.resolve (op.input 0) else p.1.resolve s := by
  obtain ⟨hin0, -⟩ := h.inv.base_facts hg h.op_eq he
  simp only [InplaceScan.ghost, he, if_true]
  rw [InplaceInv.step_eligible he, hin0]
  refine ⟨trivial, fun s => ?_⟩
  unfold InplaceScan.resolve
  by_cases hs : s = op.out <;> simp [hs]

end ScanAt

/-- An in-place store, from the comb and the buffers it works on. -/
lemma Op.routed_inplace_of {op : Op U} (h : op.opcode.isInplaceStore = true) {b : Binding}
    {m : Arena V} {comb : ℕ × ℕ × ℕ} {rhs old : ℕ → V} (hcomb : op.comb (b.len (op.input 1)) = comb)
    (hrhs : m (b.home (op.input 1)) = rhs) (hold : m (b.home op.out) = old) :
    op.routed b m = some (writeComb comb.1 comb.2.1 comb.2.2 rhs old) := by
  subst hcomb hrhs hold
  exact Op.routed_inplace h b m

/-- An in-place form routes like the copying store it replaces. -/
lemma inplaceForm_facts {oc oc' : Opcode} (h : oc.inplaceForm = some oc') :
    oc'.isInplaceStore = true ∧ ∀ (op : Op U) (op' : Op U), op.opcode = oc → op'.opcode = oc' →
      op'.idata = op.idata → ∀ m, op'.comb m = op.comb m := by
  cases oc <;> simp only [Opcode.inplaceForm, Option.some.injEq, reduceCtorEq] at h
  all_goals subst h
  all_goals refine ⟨rfl, fun op op' ho ho' hi m => ?_⟩
  all_goals simp [Op.comb, ho, ho', Op.imm, hi]

/-! ## Forward -/

/-- The sweeps before op `n`: every defined slot that is not stale holds what the slot that stands
for it holds. -/
structure InplaceRelated (g : Graph U) (n : ℕ) (p : InplaceScan × (ℕ → Bool))
    (σ τ : SweepState V S W) : Prop where
  world : τ.world = σ.world
  shared : τ.shared = σ.shared
  cell : ∀ s, DefinedAt g.ops n s → p.2 s = false → ∀ e < g.len s,
    τ.mem (p.1.resolve s) e = σ.mem s e

namespace InplaceRelated

variable {g : Graph U} {isRoot : ℕ → Bool} {pf p : InplaceScan × (ℕ → Bool)} {n : ℕ} {op : Op U}
  {rest : List (Op U)} {b b' : Binding} {σ τ : SweepState V S W} {K : Kernels U V S W}

/-- The next op reads the same. -/
lemma read_eq (h : InplaceRelated g n p σ τ) (ha : ScanAt g isRoot pf n p (op :: rest))
    (hg : ProducerGraph g) (hb' : LiveBinding g pf b') (hhome : g.bind.home = id) {s : ℕ}
    (hs : s ∈ op.ins) : b'.read τ.mem (p.1.resolve s) = g.bind.read σ.mem s := by
  obtain ⟨hd, hz⟩ := ha.inv.read hg ha.op_eq hs
  have hlen := ha.len_resolve hg hb' hd
  refine Binding.read_eq_read hlen fun e he => ?_
  rw [hb'.home, hhome]
  exact h.cell s hd hz e (hlen ▸ he)

/-- After an op that produces its outputs anew, when these agree. -/
lemma next_fresh (h : InplaceRelated g n p σ τ) (ha : ScanAt g isRoot pf n p (op :: rest))
    (hg : ProducerGraph g) (he : p.1.eligible g isRoot op = false)
    (hip : op.opcode.isInplaceStore = false) {σ' τ' : SweepState V S W}
    (hworld : τ'.world = σ'.world) (hshared : τ'.shared = σ'.shared)
    (hσ : ∀ s, s ∉ op.outs → σ'.mem s = σ.mem s) (hτ : ∀ s, s ∉ op.outs → τ'.mem s = τ.mem s)
    (houts : ∀ s ∈ op.outs, ∀ e < g.len s, τ'.mem s e = σ'.mem s e) :
    InplaceRelated g (n + 1) ((InplaceScan.ghost g isRoot).next p op) σ' τ' := by
  obtain ⟨hz, -, hres⟩ := ScanAt.next_not_eligible he
  refine ⟨hworld, hshared, fun s hs hzs e hel => ?_⟩
  rw [hz] at hzs
  rw [hres]
  by_cases hso : s ∈ op.outs
  · have hn := (ha.inv.rename_of_producer hg ⟨op, ha.op_eq, hip, hso⟩).1
    rw [InplaceInv.resolve_of_none hn]
    exact houts s hso e hel
  · have hsn : DefinedAt g.ops n s := by
      refine hs.of_succ ?_
      rintro ⟨o, ho, -, hsoo⟩
      obtain rfl := Option.some.inj (ha.op_eq.symm.trans ho)
      exact hso hsoo
    have hv : p.1.resolve s ∉ op.outs := by
      intro hv
      have := (ha.inv.definedAt_resolve hg hsn).1 n ⟨op, ha.op_eq, hip, hv⟩
      omega
    rw [hσ s hso, hτ _ hv]
    exact h.cell s hsn hzs e hel

/-- A load or a copying store that stays. -/
lemma next_routed (h : InplaceRelated g n p σ τ) (ha : ScanAt g isRoot pf n p (op :: rest))
    (hg : ProducerGraph g) (hb' : LiveBinding g pf b') (hhome : g.bind.home = id)
    (he : p.1.eligible g isRoot op = false)
    (hop : op.opcode = .index ∨ op.opcode.isCopyingStore = true) :
    ∃ buf buf', op.routed g.bind σ.mem = some buf ∧
      (op.mapIns p.1.resolve).routed b' τ.mem = some buf' ∧
      InplaceRelated g (n + 1) ((InplaceScan.ghost g isRoot).next p op)
        { σ with mem := Function.update σ.mem op.out buf }
        { τ with mem := Function.update τ.mem op.out buf' } := by
  have hmem := List.mem_of_getElem? ha.op_eq
  have hip : op.opcode.isInplaceStore = false := by
    rcases hop with hi | hc
    · rw [hi]
      rfl
    · exact Opcode.isInplaceStore_eq_false_of_isCopyingStore hc
  have hcell : ∀ s ∈ op.ins, g.len s = b'.len (p.1.resolve s) ∧
      ∀ e < g.len s, τ.mem (p.1.resolve s) e = σ.mem s e := by
    intro s hs
    obtain ⟨hd, hz⟩ := ha.inv.read hg ha.op_eq hs
    exact ⟨(ha.len_resolve hg hb' hd).symm, h.cell s hd hz⟩
  have hbufs : ∃ buf buf', op.routed g.bind σ.mem = some buf ∧
      (op.mapIns p.1.resolve).routed b' τ.mem = some buf' ∧ op.out2 = none ∧
      ∀ e < g.len op.out, buf' e = buf e := by
    rcases hop with hi | hcp
    · obtain ⟨hins, hout2, hlen, h0, hlt⟩ := hg.loads op hmem hi
      have hin : (op.mapIns p.1.resolve).input 0 = p.1.resolve (op.input 0) :=
        Op.mapIns_input (by simp [hins])
      refine ⟨_, _, Op.routed_index hi _ _, Op.routed_index (by simpa using hi) _ _, hout2,
        fun e hel => ?_⟩
      obtain rfl : e = 0 := by omega
      simp only [hin, Op.mapIns_imm, hhome, hb'.home, id_eq, Function.update_self]
      exact (hcell _ (by rw [hins]; simp)).2 _ (by omega)
    · have hc := hg.contract ha.op_eq (by simp [Opcode.isStore, hcp])
      have hin0 : (op.mapIns p.1.resolve).input 0 = p.1.resolve (op.input 0) :=
        Op.mapIns_input (by simp [hc.ins_eq])
      have hin1 : (op.mapIns p.1.resolve).input 1 = p.1.resolve (op.input 1) :=
        Op.mapIns_input (by simp [hc.ins_eq])
      obtain ⟨hlen1, hcell1⟩ := hcell (op.input 1) (by rw [hc.ins_eq]; simp)
      obtain ⟨-, hcell0⟩ := hcell (op.input 0) (by rw [hc.ins_eq]; simp)
      refine ⟨_, _, Op.routed_copying hcp _ _, Op.routed_copying (by simpa using hcp) _ _,
        hc.out2_eq, fun e hel => ?_⟩
      simp only [hin0, hin1, Op.mapIns_comb, hhome, hb'.home, id_eq, ← hlen1, Graph.bind_len]
      refine writeComb_congr (fun k hk => hcell1 k (hc.rhsLen ▸ hk)) fun _ => hcell0 e ?_
      rw [← (hc.copying hip).2.2]
      exact hel
  obtain ⟨buf, buf', hbuf, hbuf', hout2, heq⟩ := hbufs
  have houts : ∀ s, s ∈ op.outs ↔ s = op.out := fun s => by simp [hout2]
  refine ⟨buf, buf', hbuf, hbuf', h.next_fresh ha hg he hip h.world h.shared ?_ ?_ ?_⟩
  · intro s hs
    exact Function.update_of_ne (fun hso => hs ((houts s).2 hso)) _ _
  · intro s hs
    exact Function.update_of_ne (fun hso => hs ((houts s).2 hso)) _ _
  · intro s hs e hel
    obtain rfl := (houts s).1 hs
    simp only [Function.update_self]
    exact heq e hel

/-- A store in place of the rewritten graph combines the buffers its inputs are renamed to. -/
lemma routed_rewritten (hb' : LiveBinding g pf b') (out : ℕ) (mem : Arena V) {oc : Opcode}
    (hip : oc.isInplaceStore = true) (hin : (op.mapIns p.1.resolve).input 1 = p.1.resolve (op.input 1))
    (hlen : b'.len (p.1.resolve (op.input 1)) = g.len (op.input 1))
    (hcomb : ∀ len,
      ({ op.mapIns p.1.resolve with opcode := oc, out := out } : Op U).comb len = op.comb len) :
    ({ op.mapIns p.1.resolve with opcode := oc, out := out } : Op U).routed b' mem =
      some (writeComb (op.comb (g.len (op.input 1))).1 (op.comb (g.len (op.input 1))).2.1
        (op.comb (g.len (op.input 1))).2.2 (mem (p.1.resolve (op.input 1))) (mem out)) := by
  refine Op.routed_inplace_of hip ?_ ?_ ?_
  · refine (hcomb _).trans ?_
    change op.comb (b'.len ((op.mapIns p.1.resolve).input 1)) = _
    rw [hin, hlen]
  · change mem (b'.home ((op.mapIns p.1.resolve).input 1)) = _
    rw [hin, hb'.home, id_eq]
  · change mem (b'.home out) = _
    rw [hb'.home, id_eq]

/-- A store that is already in place. -/
lemma next_inplace (h : InplaceRelated g n p σ τ) (ha : ScanAt g isRoot pf n p (op :: rest))
    (hg : ProducerGraph g) (hb' : LiveBinding g pf b') (hhome : g.bind.home = id)
    (hip : op.opcode.isInplaceStore = true) :
    ∃ buf buf', op.routed g.bind σ.mem = some buf ∧
      (p.1.rewrite g isRoot op).routed b' τ.mem = some buf' ∧
      InplaceRelated g (n + 1) ((InplaceScan.ghost g isRoot).next p op)
        { σ with mem := Function.update σ.mem op.out buf }
        { τ with mem := Function.update τ.mem (p.1.rewrite g isRoot op).out buf' } := by
  have hc := hg.contract ha.op_eq (Opcode.isStore_of_isInplaceStore hip)
  obtain ⟨he, hrw⟩ := @ScanAt.rewrite_inplace U g isRoot p op hc hip
  obtain ⟨hz, -, hres⟩ := ScanAt.next_not_eligible he
  have hout := (hc.inplace hip).1
  have hin1 : (op.mapIns p.1.resolve).input 1 = p.1.resolve (op.input 1) :=
    Op.mapIns_input (by simp [hc.ins_eq])
  obtain ⟨hd0, hz0⟩ := ha.inv.read hg ha.op_eq (s := op.input 0) (by rw [hc.ins_eq]; simp)
  obtain ⟨hd1, hz1⟩ := ha.inv.read hg ha.op_eq (s := op.input 1) (by rw [hc.ins_eq]; simp)
  have hlen1 := ha.len_resolve hg hb' hd1
  rw [hrw]
  have hrouted := routed_rewritten hb' (p.1.resolve op.out) τ.mem hip hin1 hlen1
    fun _ => rfl
  refine ⟨_, _, Op.routed_inplace hip _ _, hrouted, h.world, h.shared, fun s hs hzs e hel => ?_⟩
  rw [hz] at hzs
  rw [hres]
  have hsn : DefinedAt g.ops n s := hs.of_succ <| by
    rintro ⟨o, ho, hnip, -⟩
    obtain rfl := Option.some.inj (ha.op_eq.symm.trans ho)
    simp [hip] at hnip
  by_cases hso : s = op.out
  · subst hso
    simp only [Function.update_self]
    rw [hhome, Graph.bind_len]
    refine writeComb_congr (fun k hk => h.cell _ hd1 hz1 k (hc.rhsLen ▸ hk)) fun _ => ?_
    exact h.cell _ hsn hzs e hel
  · have hne : p.1.resolve s ≠ p.1.resolve op.out := fun heq =>
      hso (ha.inv.inj _ _ hzs (hout ▸ hz0) heq)
    simp only [Function.update_of_ne hso]
    rw [Function.update_of_ne hne]
    exact h.cell s hsn hzs e hel

/-- A store that is rewritten: its output takes over the buffer of its base. -/
lemma next_eligible (h : InplaceRelated g n p σ τ) (ha : ScanAt g isRoot pf n p (op :: rest))
    (hg : ProducerGraph g) (hb' : LiveBinding g pf b') (hhome : g.bind.home = id)
    (he : p.1.eligible g isRoot op = true) :
    ∃ buf buf', op.routed g.bind σ.mem = some buf ∧
      (p.1.rewrite g isRoot op).routed b' τ.mem = some buf' ∧
      InplaceRelated g (n + 1) ((InplaceScan.ghost g isRoot).next p op)
        { σ with mem := Function.update σ.mem op.out buf }
        { τ with mem := Function.update τ.mem (p.1.rewrite g isRoot op).out buf' } := by
  obtain ⟨hcp, -⟩ := InplaceInv.eligible_facts he
  have hc := hg.contract ha.op_eq (by simp [Opcode.isStore, hcp])
  have hnip := Opcode.isInplaceStore_eq_false_of_isCopyingStore hcp
  obtain ⟨-, hin1, hm0, hm1, -⟩ := ha.inv.base_facts hg ha.op_eq he
  obtain ⟨oc, hoc, hrw⟩ := ScanAt.rewrite_eligible hc he
  obtain ⟨hip', hcomb⟩ := inplaceForm_facts (U := U) hoc
  obtain ⟨hz, hres⟩ := ha.next_eligible hg he
  obtain ⟨hd0, hz0⟩ := ha.inv.read hg ha.op_eq hm0
  obtain ⟨hd1, hz1⟩ := ha.inv.read hg ha.op_eq hm1
  have hlen1 := ha.len_resolve hg hb' hd1
  rw [hrw]
  have hrouted := routed_rewritten hb' (p.1.resolve (op.input 0)) τ.mem hip' hin1 hlen1
    (hcomb op _ rfl rfl rfl)
  refine ⟨_, _, Op.routed_copying hcp _ _, hrouted, h.world, h.shared, fun s hs hzs e hel => ?_⟩
  have hs0 : s ≠ op.input 0 := by
    rintro rfl
    rw [hz] at hzs
    simp at hzs
  rw [hz, Function.update_of_ne hs0] at hzs
  rw [hres]
  by_cases hso : s = op.out
  · subst hso
    simp only [if_true, Function.update_self]
    rw [hhome, Graph.bind_len]
    refine writeComb_congr (fun k hk => h.cell _ hd1 hz1 k (hc.rhsLen ▸ hk)) fun _ => ?_
    exact h.cell _ hd0 hz0 e ((hc.copying hnip).2.2 ▸ hel)
  · have hsn : DefinedAt g.ops n s := hs.of_succ <| by
      rintro ⟨o, ho, -, hsoo⟩
      obtain rfl := Option.some.inj (ha.op_eq.symm.trans ho)
      exact hso (by simpa [hc.out2_eq] using hsoo)
    have hne : p.1.resolve s ≠ p.1.resolve (op.input 0) := fun heq =>
      hs0 (ha.inv.inj _ _ hzs hz0 heq)
    simp only [if_neg hso, Function.update_of_ne hso]
    rw [Function.update_of_ne hne]
    exact h.cell s hsn hzs e hel

/-- Any other kernel, on the same inputs. -/
lemma next_kernel (h : InplaceRelated g n p σ τ) (ha : ScanAt g isRoot pf n p (op :: rest))
    (hg : ProducerGraph g) (hb' : LiveBinding g pf b') (hhome : g.bind.home = id)
    (hr : op.opcode.isRouted = false) (r : KernelOut V S) (w : W) :
    InplaceRelated g (n + 1) ((InplaceScan.ghost g isRoot).next p op)
      { mem := op.store g.bind r.out r.out2 σ.mem, world := w, shared := σ.shared }
      { mem := (op.mapIns p.1.resolve).store b' r.out r.out2 τ.mem, world := w
        shared := τ.shared } := by
  obtain ⟨he, hip⟩ := @not_eligible_of_kernel U g isRoot p op hr
  refine h.next_fresh ha hg he hip rfl h.shared ?_ ?_ ?_
  · exact fun s hs => Op.store_apply_of_notMem op (fun t _ => congrFun hhome t) hs
  · exact fun s hs => Op.store_apply_of_notMem (op.mapIns p.1.resolve)
      (fun t _ => congrFun hb'.home t) hs
  · exact fun s hs e _ => congrFun
      (Op.store_apply_of_mem op (op.mapIns p.1.resolve) (fun t _ => congrFun hhome t)
        (fun t _ => congrFun hb'.home t) rfl rfl hs) e

end InplaceRelated

/-! ## Reverse -/

/-- The slots whose adjoints are compared before op `n`. -/
def Tracked (g : Graph U) (n s : ℕ) : Prop := DefinedAt g.ops n s ∨ g.isParam s = true

/-- The adjoints before op `n` (after the sweep has come back to it): a slot that is not stale has the
adjoint of the slot that stands for it, and the adjoint of a stale slot is still zero. -/
structure AdjointRelated [AddCommMonoid V] (g : Graph U) (n : ℕ) (p : InplaceScan × (ℕ → Bool))
    (α β : Arena V) : Prop where
  cell : ∀ s, Tracked g n s → p.2 s = false → ∀ e < g.len s, β (p.1.resolve s) e = α s e
  stale : ∀ s, p.2 s = true → ∀ e < g.len s, α s e = 0

namespace AdjointRelated

variable [AddCommMonoid V] {g : Graph U} {isRoot : ℕ → Bool} {pf p : InplaceScan × (ℕ → Bool)}
  {n : ℕ} {op : Op U} {rest : List (Op U)} {b' : Binding} {α β : Arena V} {K : Kernels U V S W}
  {fin fin' : Arena V} {entry entry' : LogEntry V S}

/-- What the inputs of an op receive when they are renamed. -/
lemma accumulate_resolve (ha : ScanAt g isRoot pf n p (op :: rest)) (hg : ProducerGraph g)
    (hb' : LiveBinding g pf b') {s e : ℕ} (hz : p.2 s = false) {inc inc' : ℕ → ℕ → V}
    (hinc : ∀ j, op.ins[j]? = some s → inc' j e = inc j e)
    (hadj : β (p.1.resolve s) e = α s e) :
    accumulate b' (op.ins.map p.1.resolve) inc' β (p.1.resolve s) e =
      accumulate g.bind op.ins inc α s e := by
  refine accumulate_map (fun t ht => ⟨fun heq => ?_, fun heq => by rw [heq]⟩)
    (fun hs => ha.active_resolve hg hb' hs) hinc hadj
  exact ha.inv.inj _ _ (ha.inv.read hg ha.op_eq ht).2 hz heq

/-- Before an op that is not rewritten, when its inputs receive the same. -/
lemma prev (h : AdjointRelated g (n + 1) ((InplaceScan.ghost g isRoot).next p op) α β)
    (ha : ScanAt g isRoot pf n p (op :: rest)) (he : p.1.eligible g isRoot op = false)
    {α' β' : Arena V} (hcell : ∀ s, p.2 s = false → ∀ e < g.len s, Tracked g n s →
      β (p.1.resolve s) e = α s e → β' (p.1.resolve s) e = α' s e)
    (hother : ∀ s e, s ∉ op.ins → s ∉ op.outs → α' s e = α s e) : AdjointRelated g n p α' β' := by
  obtain ⟨hz, -, hres⟩ := ScanAt.next_not_eligible he
  constructor
  · intro s hs hzs e hel
    refine hcell s hzs e hel hs ?_
    have hs' : Tracked g (n + 1) s := hs.imp (fun hd => hd.mono (by omega)) id
    rw [← hres]
    exact h.cell s hs' (hz ▸ hzs) e hel
  · intro s hzs e hel
    obtain ⟨-, -, -, hlater⟩ := ha.inv.stale s hzs
    obtain ⟨hin, hout⟩ := hlater n op (le_refl n) ha.op_eq
    rw [hother s e hin hout]
    exact h.stale s (hz ▸ hzs) e hel

/-- Before a load or a copying store that stays. -/
lemma prev_routed (h : AdjointRelated g (n + 1) ((InplaceScan.ghost g isRoot).next p op) α β)
    (ha : ScanAt g isRoot pf n p (op :: rest)) (hg : ProducerGraph g) (hb' : LiveBinding g pf b')
    (he : p.1.eligible g isRoot op = false)
    (hop : op.opcode = .index ∨ op.opcode.isCopyingStore = true) :
    AdjointRelated g n p (backwardOp K g.bind fin op entry α)
      (backwardOp K b' fin' (op.mapIns p.1.resolve) entry' β) := by
  have hmem := List.mem_of_getElem? ha.op_eq
  have hip : op.opcode.isInplaceStore = false := by
    rcases hop with hi | hc
    · rw [hi]
      rfl
    · exact Opcode.isInplaceStore_eq_false_of_isCopyingStore hc
  have hprod : Producer g.ops op.out n := ⟨op, ha.op_eq, hip, by simp⟩
  obtain ⟨hno, hzo⟩ := ha.inv.rename_of_producer hg hprod
  have hd : DefinedAt g.ops (n + 1) op.out := hg.definedAt_of_producer hprod (by omega)
  -- the adjoint of the output, as far as the op looks at it
  have hout : ∀ e < g.len op.out, β op.out e = α op.out e := by
    intro e hel
    obtain ⟨hz, -, hres⟩ := @ScanAt.next_not_eligible U g isRoot p op he
    have := h.cell op.out (.inl hd) (hz ▸ hzo) e hel
    rwa [hres, InplaceInv.resolve_of_none hno] at this
  rw [backwardOp_routed hop, backwardOp_routed (by simpa using hop)]
  refine h.prev ha he (fun s hzs e hel _ hadj => ?_) fun s e hs _ => accumulate_of_notMem hs
  refine accumulate_resolve ha hg hb' hzs (fun j hj => ?_) hadj
  rcases hop with hi | hcp
  · obtain ⟨-, -, hlen, -⟩ := hg.loads op hmem hi
    exact Op.routedBack_index hi rfl rfl (hout 0 (by omega))
  · have hc := hg.contract ha.op_eq (by simp [Opcode.isStore, hcp])
    have hin1 : (op.mapIns p.1.resolve).input 1 = p.1.resolve (op.input 1) :=
      Op.mapIns_input (by simp [hc.ins_eq])
    have hd1 : DefinedAt g.ops n (op.input 1) :=
      (ha.inv.read hg ha.op_eq (by rw [hc.ins_eq]; simp)).1
    have hleno : b'.len op.out = g.len op.out := ha.len_out hg hb' he hip (by simp)
    refine Op.routedBack_store (Opcode.ne_index_of_isStore (by simp [Opcode.isStore, hcp])) rfl ?_
      (fun _ => ⟨hleno, fun hel => hout e hel⟩) fun hel => ?_
    · rw [hin1, ha.len_resolve hg hb' hd1, Op.mapIns_comb, Graph.bind_len]
    · exact hout _ (by rw [(hc.copying hip).2.2]; exact hc.fits _ (inComb_iff.2 ⟨e, hel, rfl⟩))

/-- Before a store that is already in place. -/
lemma prev_inplace (h : AdjointRelated g (n + 1) ((InplaceScan.ghost g isRoot).next p op) α β)
    (ha : ScanAt g isRoot pf n p (op :: rest)) (hg : ProducerGraph g) (hb' : LiveBinding g pf b')
    (hip : op.opcode.isInplaceStore = true) :
    AdjointRelated g n p (backwardOp K g.bind fin op entry α)
      (backwardOp K b' fin' (p.1.rewrite g isRoot op) entry' β) := by
  have hc := hg.contract ha.op_eq (Opcode.isStore_of_isInplaceStore hip)
  obtain ⟨he, hrw⟩ := @ScanAt.rewrite_inplace U g isRoot p op hc hip
  obtain ⟨hz, -, hres⟩ := @ScanAt.next_not_eligible U g isRoot p op he
  have hout := (hc.inplace hip).1
  have hmem0 : op.out ∈ op.ins := by
    rw [hc.ins_eq, hout]
    simp
  have hin1 : (op.mapIns p.1.resolve).input 1 = p.1.resolve (op.input 1) :=
    Op.mapIns_input (by simp [hc.ins_eq])
  obtain ⟨hd0, hz0⟩ := ha.inv.read hg ha.op_eq hmem0
  have hd1 : DefinedAt g.ops n (op.input 1) :=
    (ha.inv.read hg ha.op_eq (by rw [hc.ins_eq]; simp)).1
  have hcp : op.opcode.isCopyingStore = false := by
    by_contra hcp
    rw [Bool.not_eq_false] at hcp
    rw [Opcode.isInplaceStore_eq_false_of_isCopyingStore hcp] at hip
    cases hip
  have hcomb : (p.1.rewrite g isRoot op).comb (b'.len ((p.1.rewrite g isRoot op).input 1)) =
      op.comb (g.len (op.input 1)) := by
    rw [hrw]
    change op.comb (b'.len ((op.mapIns p.1.resolve).input 1)) = _
    rw [hin1, ha.len_resolve hg hb' hd1]
  have hins : (p.1.rewrite g isRoot op).ins = op.ins.map p.1.resolve := by
    rw [hrw]
    rfl
  have hout' : (p.1.rewrite g isRoot op).out = p.1.resolve op.out := by rw [hrw]
  have hip' : (p.1.rewrite g isRoot op).opcode.isInplaceStore = true := by
    rw [hrw]
    exact hip
  have hoc : (p.1.rewrite g isRoot op).opcode = op.opcode := by
    rw [hrw]
    rfl
  refine h.prev ha he (fun s hzs e hel hs hadj => ?_) fun s e hs hso => ?_
  · rw [backwardOp_inplace hip, backwardOp_inplace hip', hcomb, hins, hout', Graph.bind_len]
    have hiff : p.1.resolve s = p.1.resolve op.out ↔ s = op.out :=
      ⟨fun heq => ha.inv.inj _ _ hzs hz0 heq, fun heq => by rw [heq]⟩
    by_cases hclear : s = op.out ∧ inComb (op.comb (g.len (op.input 1))) e = true
    · rw [if_pos ⟨hiff.2 hclear.1, hclear.2⟩, if_pos hclear]
    · rw [if_neg fun hcl => hclear ⟨hiff.1 hcl.1, hcl.2⟩, if_neg hclear]
      refine accumulate_resolve ha hg hb' hzs (fun j hj => ?_) hadj
      refine Op.routedBack_store (Opcode.ne_index_of_isStore (by simp [Opcode.isStore, hip])) hoc
        hcomb (fun hcopy => absurd hcopy (by simp [hcp])) fun hel => ?_
      have hfit := hc.fits _ (inComb_iff.2 ⟨e, hel, rfl⟩)
      have hcell := h.cell op.out (.inl (hd0.mono (by omega))) (hz ▸ hz0) _ (hout ▸ hfit)
      rw [hres] at hcell
      exact hcell
  · have hne : s ≠ op.out := fun heq => hso (by simp [heq])
    rw [backwardOp_inplace hip, if_neg fun hcl => hne hcl.1]
    exact accumulate_of_notMem hs

/-- Before a store that is rewritten: base and output share one adjoint buffer. -/
lemma prev_eligible (h : AdjointRelated g (n + 1) ((InplaceScan.ghost g isRoot).next p op) α β)
    (ha : ScanAt g isRoot pf n p (op :: rest)) (hg : ProducerGraph g) (hb' : LiveBinding g pf b')
    (he : p.1.eligible g isRoot op = true) :
    AdjointRelated g n p (backwardOp K g.bind fin op entry α)
      (backwardOp K b' fin' (p.1.rewrite g isRoot op) entry' β) := by
  obtain ⟨hcp, -, hne01, -, -, -, -, -, -⟩ := InplaceInv.eligible_facts he
  have hc := hg.contract ha.op_eq (by simp [Opcode.isStore, hcp])
  have hnip := Opcode.isInplaceStore_eq_false_of_isCopyingStore hcp
  obtain ⟨hin0, hin1, hm0, hm1, hprod, -, -⟩ := ha.inv.base_facts hg ha.op_eq he
  obtain ⟨oc, hoc, hrw⟩ := ScanAt.rewrite_eligible hc he
  obtain ⟨hip', hcombs⟩ := inplaceForm_facts (U := U) hoc
  obtain ⟨hz, hres⟩ := ha.next_eligible hg he
  obtain ⟨hd0, hz0⟩ := ha.inv.read hg ha.op_eq hm0
  obtain ⟨hd1, hz1⟩ := ha.inv.read hg ha.op_eq hm1
  obtain ⟨-, hlen⟩ := (hc.copying hnip).2
  have hne0 : op.out ≠ op.input 0 := (hc.copying hnip).1
  have hzo := (ha.inv.rename_of_producer hg hprod).2
  rw [hin0, hin1] at hne01
  have hne : op.input 1 ≠ op.input 0 := fun heq => hne01 (by rw [heq])
  set o := p.1.rewrite g isRoot op with ho
  have hins : o.ins = [p.1.resolve (op.input 0), p.1.resolve (op.input 1)] := by
    rw [hrw]
    change op.ins.map p.1.resolve = _
    rw [hc.ins_eq]
    rfl
  have hcomb : o.comb (b'.len (o.input 1)) = op.comb (g.len (op.input 1)) := by
    refine (hcombs op o rfl (by rw [hrw]) (by rw [hrw]; rfl) _).trans ?_
    have : o.input 1 = p.1.resolve (op.input 1) := by simp [Op.input, hins]
    rw [this, ha.len_resolve hg hb' hd1]
  have hout' : o.out = p.1.resolve (op.input 0) := by rw [hrw]
  have hoip : o.opcode.isInplaceStore = true := by
    rw [hrw]
    exact hip'
  have hocp : o.opcode.isCopyingStore = false := by
    by_contra hcontra
    rw [Bool.not_eq_false] at hcontra
    rw [Opcode.isInplaceStore_eq_false_of_isCopyingStore hcontra] at hoip
    cases hoip
  have hni : op.opcode ≠ .index := Opcode.ne_index_of_isStore (by simp [Opcode.isStore, hcp])
  have honi : o.opcode ≠ .index := Opcode.ne_index_of_isStore (by simp [Opcode.isStore, hoip])
  -- the adjoints after the op: the output has the base's, and the base itself has none yet
  have hvout : ∀ e < g.len op.out, β (p.1.resolve (op.input 0)) e = α op.out e := by
    intro e hel
    have := h.cell op.out (.inl (hg.definedAt_of_producer hprod (by omega)))
      (by rw [hz, Function.update_of_ne hne0]; exact hzo) e hel
    rwa [hres, if_pos rfl] at this
  have hbase : ∀ e < g.len (op.input 0), α (op.input 0) e = 0 := fun e hel =>
    h.stale _ (by rw [hz, Function.update_self]) e hel
  have hact0 : g.bind.active (op.input 0) = true := by
    cases hr : p.1.rename (op.input 0) with
    | none =>
      obtain ⟨-, -, -, -, -, -, j, -, hj⟩ := ha.inv.base_facts hg ha.op_eq he
      rw [InplaceInv.resolve_of_none hr] at hj
      exact hj.writes.active
    | some v =>
      obtain ⟨-, -, -, -, -, -, ⟨j, -, hj⟩, -⟩ := ha.inv.renamed _ v hr
      exact hj.writes.active
  have hback0 : ∀ e, o.routedBack b' (β o.out) 0 e = 0 := by
    intro e
    simp [Op.routedBack, honi, hocp]
  have hback1 : ∀ e, o.routedBack b' (β o.out) 1 e = op.routedBack g.bind (α op.out) 1 e := by
    intro e
    simp only [Op.routedBack, honi, hni, if_false, Nat.one_ne_zero, hcomb, Graph.bind_len]
    by_cases hk : e < (op.comb (g.len (op.input 1))).2.2
    · have hfit := hc.fits _ (inComb_iff.2 ⟨e, hk, rfl⟩)
      simp [hk, hout', hvout _ (by rw [hlen]; exact hfit)]
    · simp [hk]
  constructor
  · intro s hs hzs e hel
    rw [backwardOp_inplace hoip, backwardOp_routed (.inr hcp), hcomb, hins, hc.ins_eq,
      accumulate_pair, accumulate_pair, hback0, hback1, hout']
    by_cases hs0 : s = op.input 0
    · subst hs0
      have hkeep : op.routedBack g.bind (α op.out) 0 e =
          if inComb (op.comb (g.len (op.input 1))) e = true then 0 else α op.out e := by
        simp only [Op.routedBack, hni, if_false, if_true, hcp, true_and, Graph.bind_len]
        by_cases hk : inComb (op.comb (g.len (op.input 1))) e = true
        · simp [hk]
        · simp [hk, hlen, hel]
      simp only [true_and, and_true, hne01, hne, and_false, if_false, add_zero, ite_self, hkeep,
        hact0, if_true, hbase e hel, zero_add]
      by_cases hk : inComb (op.comb (g.len (op.input 1))) e = true
      · simp [hk]
      · simp only [hk, Bool.false_eq_true, if_false]
        exact hvout e (hlen ▸ hel)
    · have hsv : p.1.resolve s ≠ p.1.resolve (op.input 0) := fun heq =>
        hs0 (ha.inv.inj _ _ hzs hz0 heq)
      have hso : s ≠ op.out := by
        rintro rfl
        rcases hs with hd | hpar
        · have := hd n hprod
          omega
        · rw [Graph.isParam_out_of_valid (hg.stores op (List.mem_of_getElem? ha.op_eq)
            (by simp [Opcode.isStore, hcp]))] at hpar
          cases hpar
      have hcell : β (p.1.resolve s) e = α s e := by
        have := h.cell s (hs.imp (fun hd => hd.mono (by omega)) id)
          (by rw [hz, Function.update_of_ne hs0]; exact hzs) e hel
        rwa [hres, if_neg hso] at this
      have hact : b'.active (p.1.resolve (op.input 1)) = g.bind.active (op.input 1) :=
        ha.active_resolve hg hb' hm1
      have hiff : p.1.resolve (op.input 1) = p.1.resolve s ↔ op.input 1 = s :=
        ⟨fun heq => ha.inv.inj _ _ hz1 hzs heq, fun heq => by rw [heq]⟩
      simp [hsv, Ne.symm hsv, Ne.symm hs0, hcell, hact, hiff]
  · intro s hzs e hel
    obtain ⟨-, -, -, hlater⟩ := ha.inv.stale s hzs
    obtain ⟨hin, -⟩ := hlater n op (le_refl n) ha.op_eq
    rw [backwardOp_routed (.inr hcp), accumulate_of_notMem hin]
    refine h.stale s ?_ e hel
    rw [hz]
    by_cases hs0 : s = op.input 0
    · rw [hs0, Function.update_self]
    · rw [Function.update_of_ne hs0]
      exact hzs

/-- Before any other op, whose backward looks at the same values. -/
lemma prev_kernel (h : AdjointRelated g (n + 1) ((InplaceScan.ghost g isRoot).next p op) α β)
    (ha : ScanAt g isRoot pf n p (op :: rest)) (hg : ProducerGraph g) (hb' : LiveBinding g pf b')
    (hhome : g.bind.home = id) (hr : op.opcode.isRouted = false)
    (hfin : ∀ s, pf.2 s = false → ∀ e < g.len s, fin' (pf.1.resolve s) e = fin s e)
    (hentry : entry'.scratch = entry.scratch) :
    AdjointRelated g n p (backwardOp K g.bind fin op entry α)
      (backwardOp K b' fin' (op.mapIns p.1.resolve) entry' β) := by
  obtain ⟨he, hip⟩ := @not_eligible_of_kernel U g isRoot p op hr
  obtain ⟨hz, -, hres⟩ := @ScanAt.next_not_eligible U g isRoot p op he
  have hprod : ∀ s ∈ op.outs, Producer g.ops s n := fun s hs => ⟨op, ha.op_eq, hip, hs⟩
  have hself : ∀ s ∈ op.outs, b'.len s = g.len s ∧ p.1.resolve s = s ∧
      ∀ e < g.len s, β s e = α s e := by
    intro s hs
    obtain ⟨hno, hzo⟩ := ha.inv.rename_of_producer hg (hprod s hs)
    have hd : DefinedAt g.ops (n + 1) s := hg.definedAt_of_producer (hprod s hs) (by omega)
    refine ⟨ha.len_out hg hb' he hip hs, InplaceInv.resolve_of_none hno, fun e hel => ?_⟩
    have := h.cell s (.inl hd) (hz ▸ hzo) e hel
    rwa [hres, InplaceInv.resolve_of_none hno] at this
  have hlenIn : ∀ s ∈ op.ins, b'.len (p.1.resolve s) = g.len s := fun s hs =>
    ha.len_resolve hg hb' (ha.inv.read hg ha.op_eq hs).1
  have hout : op.out ∈ op.outs := by simp
  have hout2 : ∀ o, op.out2 = some o → o ∈ op.outs := fun o ho => by simp [ho]
  -- the adjoints handed to the pullback
  have hu : (List.range (b'.len op.out)).map (β op.out) =
      (List.range (g.len op.out)).map (α op.out) := by
    obtain ⟨hl, -, hcell⟩ := hself _ hout
    rw [hl]
    exact List.map_congr_left fun e hel => hcell e (List.mem_range.1 hel)
  have hu2 : (op.out2.map fun o => β o 0).getD 0 = (op.out2.map fun o => α o 0).getD 0 := by
    cases h2 : op.out2 with
    | none => rfl
    | some o =>
      have hlen := hg.out2_len op (List.mem_of_getElem? ha.op_eq) o h2
      exact (hself o (hout2 o h2)).2.2 0 hlen
  have hact : (op.ins.map p.1.resolve).map b'.active = op.ins.map g.bind.active := by
    rw [List.map_map]
    exact List.map_congr_left fun s hs => ha.active_resolve hg hb' hs
  have hinc : K.backward op.call entry'.scratch ((op.ins.map p.1.resolve).map (b'.read fin'))
      (b'.read fin' op.out) ((op.out2.map (b'.read fin')).getD [])
      ((op.ins.map p.1.resolve).map b'.active) ((List.range (b'.len op.out)).map (β op.out))
      ((op.out2.map fun o => β o 0).getD 0) =
      K.backward op.call entry.scratch (op.ins.map (g.bind.read fin)) (g.bind.read fin op.out)
        ((op.out2.map (g.bind.read fin)).getD []) (op.ins.map g.bind.active)
        ((List.range (g.len op.out)).map (α op.out)) ((op.out2.map fun o => α o 0).getD 0) := by
    rw [hu, hu2, hact, hentry]
    by_cases hv : op.opcode.backwardIgnoresValues = true
    · refine K.backward_valueFree op.call hv _ _ _ _ _ _ _ _ _ _ ?_ ?_ ?_
      · rw [List.map_map, List.map_map, List.map_map]
        exact List.map_congr_left fun s hs => by simp [Binding.read, hlenIn s hs]
      · simp [Binding.read, (hself _ hout).1]
      · cases h2 : op.out2 with
        | none => rfl
        | some o => simp [Binding.read, (hself o (hout2 o h2)).1]
    · -- a backward that rereads values keeps its buffers from being taken over
      have hread : ∀ s, s ∈ op.ins ∨ s ∈ op.outs →
          b'.read fin' (p.1.resolve s) = g.bind.read fin s := by
        intro s hs
        obtain ⟨hzf, hrf⟩ := ha.buffers_kept hg hr (by simpa using hv) hs
        have hlen : b'.len (p.1.resolve s) = g.len s := by
          rcases hs with hs | hs
          · exact hlenIn s hs
          · rw [(hself s hs).2.1]
            exact (hself s hs).1
        refine Binding.read_eq_read hlen fun e hel => ?_
        rw [hb'.home, hhome, id_eq, id_eq, ← hrf]
        exact hfin s hzf e (hlen ▸ hel)
      have h1 : (op.ins.map p.1.resolve).map (b'.read fin') = op.ins.map (g.bind.read fin) := by
        rw [List.map_map]
        exact List.map_congr_left fun s hs => hread s (.inl hs)
      have h2 : b'.read fin' op.out = g.bind.read fin op.out := by
        have := hread op.out (.inr hout)
        rwa [(hself _ hout).2.1] at this
      have h3 : op.out2.map (b'.read fin') = op.out2.map (g.bind.read fin) := by
        cases h2 : op.out2 with
        | none => rfl
        | some o =>
          have := hread o (.inr (hout2 o h2))
          rw [(hself o (hout2 o h2)).2.1] at this
          rw [Option.map_some, Option.map_some, this]
      rw [h1, h2, h3]
  rw [backwardOp_kernel hr, backwardOp_kernel (by exact hr)]
  refine h.prev ha he (fun s hzs e hel _ hadj => ?_) fun s e hs _ => accumulate_of_notMem hs
  refine accumulate_resolve ha hg hb' hzs (fun j _ => ?_) hadj
  exact congrFun (congrFun hinc j) e

end AdjointRelated

/-! ## Whole runs -/

section Run

variable {g : Graph U} {roots : List ℕ}

/-- The scan with its stale slots after the whole graph. -/
def InplaceScan.ghostFinal (g : Graph U) (roots : List ℕ) : InplaceScan × (ℕ → Bool) :=
  (InplaceScan.ghost g (g.isRoot roots)).final (InplaceScan.start g, fun _ => false) g.ops

/-- The rewritten graph in terms of the scan that knows the stale slots. -/
lemma makeInplaceUpdates_eq (g : Graph U) (roots : List ℕ) :
    (makeInplaceUpdates g roots).1 =
      { g with
        slots := (InplaceScan.ghostFinal g roots).1.slots
        ops := (InplaceScan.ghost g (g.isRoot roots)).run (InplaceScan.start g, fun _ => false)
          g.ops } := by
  obtain ⟨hrun, -, hfinal⟩ := Rewriter.run_proj (InplaceScan.rewriter g (g.isRoot roots))
    (InplaceScan.ghost g (g.isRoot roots)) Prod.fst (fun _ _ => rfl) (fun _ _ => rfl)
    (InplaceScan.start g, fun _ => false) g.ops
  rw [InplaceScan.ghostFinal, hfinal, hrun]
  rfl

/-- The scan is on its way, before the ops `rest`. -/
def OnScan (g : Graph U) (roots : List ℕ) (p : InplaceScan × (ℕ → Bool)) (rest : List (Op U)) :
    Prop :=
  ∃ n, ScanAt g (g.isRoot roots) (InplaceScan.ghostFinal g roots) n p rest

lemma onScan_next (hg : ProducerGraph g) (p : InplaceScan × (ℕ → Bool)) (op : Op U)
    (rest : List (Op U)) (h : OnScan g roots p (op :: rest)) :
    OnScan g roots ((InplaceScan.ghost g (g.isRoot roots)).next p op) rest := by
  obtain ⟨n, h⟩ := h
  exact ⟨n + 1, h.next hg⟩

lemma onScan_start : OnScan g roots (InplaceScan.start g, fun _ => false) g.ops :=
  ⟨0, ScanAt.start rfl⟩

/-- At the end every slot is defined. -/
lemma ScanAt.definedAt_nil {isRoot : ℕ → Bool} {pf p : InplaceScan × (ℕ → Bool)} {n : ℕ}
    (h : ScanAt g isRoot pf n p []) (s : ℕ) : p = pf ∧ DefinedAt g.ops n s := by
  refine ⟨h.final_eq, fun j ⟨op, hop, _, _⟩ => ?_⟩
  have hlen := List.drop_eq_nil_iff.1 h.rest_eq
  have := (List.getElem?_eq_some_iff.1 hop).1
  omega

/-- A rewritten op writes slots that had a producer. -/
lemma ScanAt.producer_of_rewrite {isRoot : ℕ → Bool} {pf p : InplaceScan × (ℕ → Bool)} {n : ℕ}
    {op : Op U} {rest : List (Op U)} (h : ScanAt g isRoot pf n p (op :: rest))
    (hg : ProducerGraph g) {s : ℕ} (hs : s ∈ (p.1.rewrite g isRoot op).outs) :
    ∃ j, Producer g.ops s j := by
  by_cases he : p.1.eligible g isRoot op = true
  · have hc := hg.contract h.op_eq
      (by simp [Opcode.isStore, (InplaceInv.eligible_facts he).1])
    obtain ⟨oc, -, hrw⟩ := ScanAt.rewrite_eligible hc he
    obtain ⟨-, -, -, -, -, -, j, -, hj⟩ := h.inv.base_facts hg h.op_eq he
    have hso : s = p.1.resolve (op.input 0) := by
      rw [hrw] at hs
      simpa [Op.outs, Op.mapIns, hc.out2_eq] using hs
    exact ⟨j, hso ▸ hj⟩
  · rw [Bool.not_eq_true] at he
    by_cases hip : op.opcode.isInplaceStore = true
    · have hc := hg.contract h.op_eq (Opcode.isStore_of_isInplaceStore hip)
      rw [(rewrite_inplace hc hip).2] at hs
      have hso : s = p.1.resolve op.out := by simpa [Op.outs, Op.mapIns, hc.out2_eq] using hs
      cases hr : p.1.rename op.out with
      | none =>
        rw [InplaceInv.resolve_of_none hr] at hso
        exact hg.exists_producer ⟨op, h.op_eq, by simp [hso]⟩
      | some v =>
        obtain ⟨-, -, -, -, -, -, -, j, -, hj⟩ := h.inv.renamed _ v hr
        rw [InplaceInv.resolve_of_some hr] at hso
        exact ⟨j, hso ▸ hj⟩
    · rw [Bool.not_eq_true] at hip
      rw [rewrite_not_eligible he hip, Op.mapIns_outs] at hs
      exact ⟨n, op, h.op_eq, hip, hs⟩

/-- A slot that gets another name keeps having one. -/
lemma renamed_final {isRoot : ℕ → Bool} {p : InplaceScan × (ℕ → Bool)} {ops : List (Op U)} {s : ℕ}
    (h : p.1.rename s ≠ none) :
    ((InplaceScan.ghost g isRoot).final p ops).1.rename s ≠ none := by
  refine Rewriter.final_invariant (InplaceScan.ghost g isRoot)
    (I := fun (p : InplaceScan × (ℕ → Bool)) _ => p.1.rename s ≠ none) (fun p op _ h => ?_) h
  by_cases he : p.1.eligible g isRoot op = true
  · have hnext : ((InplaceScan.ghost g isRoot).next p op).1 = p.1.step g isRoot op := rfl
    rw [hnext, InplaceInv.step_eligible he]
    by_cases hs : s = op.out
    · simp [hs]
    · simp only [Function.update_of_ne hs]
      exact h
  · rw [(ScanAt.next_not_eligible (by simpa using he)).2.1]
    exact h

/-- The binding of the rewritten graph. -/
lemma liveBinding (hg : ProducerGraph g) :
    LiveBinding g (InplaceScan.ghostFinal g roots) (makeInplaceUpdates g roots).1.bind := by
  have hnext : ∀ p op rest, OnScan g roots p (op :: rest) →
      OnScan g roots ((InplaceScan.ghost g (g.isRoot roots)).next p op) rest := onScan_next hg
  obtain ⟨n, hend⟩ : OnScan g roots (InplaceScan.ghostFinal g roots) [] :=
    Rewriter.final_invariant _ hnext onScan_start
  rw [makeInplaceUpdates_eq]
  refine ⟨fun s hs => ?_, Graph.bind_home fun k hk => ?_, fun s hs => ?_⟩
  · have := hend.inv.slots s hs
    simp only [Graph.bind, Graph.len]
    rw [this]
  · obtain ⟨q, op, js, ⟨n', hat⟩, he⟩ := Rewriter.exists_emit _ hnext onScan_start hk
    obtain rfl : q.1.rewrite g (g.isRoot roots) op = k := Option.some.inj he
    rw [InplaceScan.rewrite_primalSource]
    exact hg.noPrimal op (List.mem_of_getElem? hat.op_eq)
  · -- a slot has a writer in the rewritten graph when it has a producer
    have hpar : Graph.isParam { g with
        slots := (InplaceScan.ghostFinal g roots).1.slots
        ops := (InplaceScan.ghost g (g.isRoot roots)).run (InplaceScan.start g, fun _ => false)
          g.ops } s = g.isParam s := by
      unfold Graph.isParam
      rw [← hend.inv.slots_isParam s]
    have hwr : Graph.written { g with
        slots := (InplaceScan.ghostFinal g roots).1.slots
        ops := (InplaceScan.ghost g (g.isRoot roots)).run (InplaceScan.start g, fun _ => false)
          g.ops } s = g.written s := by
      rw [Bool.eq_iff_iff]
      simp only [Graph.written, List.any_eq_true, decide_eq_true_eq]
      constructor
      · rintro ⟨k, hk, hsk⟩
        obtain ⟨q, op, js, ⟨n', hat⟩, he⟩ := Rewriter.exists_emit _ hnext onScan_start hk
        obtain rfl : q.1.rewrite g (g.isRoot roots) op = k := Option.some.inj he
        obtain ⟨j, o, ho, -, hso⟩ := hat.producer_of_rewrite hg hsk
        exact ⟨o, List.mem_of_getElem? ho, hso⟩
      · rintro ⟨o, ho, hso⟩
        obtain ⟨i, hi, rfl⟩ := List.mem_iff_getElem.1 ho
        obtain ⟨j, op, hop, hip, hsop⟩ := hg.exists_producer
          ⟨_, List.getElem?_eq_getElem hi, hso⟩
        obtain ⟨q, js, ⟨n', hat⟩, hrun⟩ := Rewriter.exists_read _ hnext onScan_start
          (List.mem_of_getElem? hop)
        have he : q.1.eligible g (g.isRoot roots) op = false := by
          by_contra he
          rw [Bool.not_eq_false] at he
          have hc := hg.contract hat.op_eq
            (by simp [Opcode.isStore, (InplaceInv.eligible_facts he).1])
          obtain rfl : s = op.out := by simpa [hc.out2_eq] using hsop
          have hr := @renamed_final U g (g.isRoot roots)
            ((InplaceScan.ghost g (g.isRoot roots)).next q op) js op.out (by
              have hn : ((InplaceScan.ghost g (g.isRoot roots)).next q op).1 =
                q.1.step g (g.isRoot roots) op := rfl
              rw [hn, InplaceInv.step_eligible he]
              simp)
          have hf := (hat.next hg).final_eq
          rw [hf] at hr
          exact hr hs
        have hrw := ScanAt.rewrite_not_eligible he hip
        exact ⟨_, hrun _ rfl, by rw [hrw]; exact hsop⟩
    change (Graph.isParam _ s || Graph.written _ s) = (g.isParam s || g.written s)
    rw [hpar, hwr]

/-- The sweeps of the graph and of its rewriting in step. -/
def InplaceSweeps (g : Graph U) (roots : List ℕ) (p : InplaceScan × (ℕ → Bool))
    (rest : List (Op U)) (σ τ : SweepState V S W) : Prop :=
  ∃ n, ScanAt g (g.isRoot roots) (InplaceScan.ghostFinal g roots) n p rest ∧
    InplaceRelated g n p σ τ

/-- One op of the forward sweep. -/
lemma InplaceSweeps.step (hg : ProducerGraph g) {K : Kernels U V S W} {b' : Binding}
    (hb' : LiveBinding g (InplaceScan.ghostFinal g roots) b') {p : InplaceScan × (ℕ → Bool)}
    {op : Op U} {rest : List (Op U)} {σ τ : SweepState V S W}
    (h : InplaceSweeps g roots p (op :: rest) σ τ) :
    (∃ e, forwardOp K g.bind op σ = .error e ∧
      forwardOp K b' (p.1.rewrite g (g.isRoot roots) op) τ = .error e) ∨
    ∃ σ' o τ' o', forwardOp K g.bind op σ = .ok (σ', o) ∧
      forwardOp K b' (p.1.rewrite g (g.isRoot roots) op) τ = .ok (τ', o') ∧
      o'.scratch = o.scratch ∧
      InplaceSweeps g roots ((InplaceScan.ghost g (g.isRoot roots)).next p op) rest σ' τ' := by
  obtain ⟨n, ha, hrel⟩ := h
  have hhome := Graph.bind_home hg.noPrimal
  have hp := hg.noPrimal op (List.mem_of_getElem? ha.op_eq)
  have hp' : (p.1.rewrite g (g.isRoot roots) op).primalSource = none := by simpa using hp
  have hroute : ∀ {buf buf' : ℕ → V}, op.routed g.bind σ.mem = some buf →
      (p.1.rewrite g (g.isRoot roots) op).routed b' τ.mem = some buf' →
      InplaceRelated g (n + 1) ((InplaceScan.ghost g (g.isRoot roots)).next p op)
        { σ with mem := Function.update σ.mem op.out buf }
        { τ with mem := Function.update τ.mem (p.1.rewrite g (g.isRoot roots) op).out buf' } →
      ∃ σ' o τ' o', forwardOp K g.bind op σ = .ok (σ', o) ∧
        forwardOp K b' (p.1.rewrite g (g.isRoot roots) op) τ = .ok (τ', o') ∧
        o'.scratch = o.scratch ∧
        InplaceSweeps g roots ((InplaceScan.ghost g (g.isRoot roots)).next p op) rest σ' τ' := by
    intro buf buf' hbuf hbuf' hnext
    refine ⟨_, _, _, _, forwardOp_routed hp hbuf, forwardOp_routed hp' hbuf', rfl, n + 1,
      ha.next hg, ?_⟩
    rw [hhome, hb'.home]
    exact hnext
  by_cases hr : op.opcode.isRouted = true
  · refine .inr ?_
    by_cases he : p.1.eligible g (g.isRoot roots) op = true
    · obtain ⟨_, _, hbuf, hbuf', hnext⟩ := hrel.next_eligible ha hg hb' hhome he
      exact hroute hbuf hbuf' hnext
    rw [Bool.not_eq_true] at he
    by_cases hip : op.opcode.isInplaceStore = true
    · obtain ⟨_, _, hbuf, hbuf', hnext⟩ := hrel.next_inplace ha hg hb' hhome hip
      exact hroute hbuf hbuf' hnext
    rw [Bool.not_eq_true] at hip
    have hop : op.opcode = .index ∨ op.opcode.isCopyingStore = true := by
      rcases Opcode.isRouted_iff.1 hr with h | h | h
      · exact .inl h
      · exact .inr h
      · rw [hip] at h
        cases h
    obtain ⟨_, _, hbuf, hbuf', hnext⟩ := hrel.next_routed ha hg hb' hhome he hop
    have hrw := ScanAt.rewrite_not_eligible he hip
    exact hroute hbuf (by rw [hrw]; exact hbuf') (by rw [hrw]; exact hnext)
  · rw [Bool.not_eq_true] at hr
    obtain ⟨he, hip⟩ := @not_eligible_of_kernel U g (g.isRoot roots) p op hr
    have hrw := ScanAt.rewrite_not_eligible he hip
    have hlen : ∀ s ∈ op.outs, b'.len s = g.bind.len s := fun s hs =>
      ha.len_out hg hb' he hip hs
    have hpair := @forwardOp_kernel_pair U V S W K g.bind b' op (op.mapIns p.1.resolve) σ τ hp hp
      hr rfl (hlen _ (by simp)) ?_ ?_ hrel.world
    · rw [hrw]
      rcases hpair with ⟨e, he, he'⟩ | ⟨r, w, hσ, hτ⟩
      · exact .inl ⟨e, he, he'⟩
      · exact .inr ⟨_, _, _, _, hσ, hτ, rfl, n + 1, ha.next hg,
          hrel.next_kernel ha hg hb' hhome hr r w⟩
    · rw [Op.mapIns_out2]
      cases h2 : op.out2 with
      | none => rfl
      | some o => rw [Option.map_some, Option.map_some, hlen o (by simp [h2])]
    · rw [Op.mapIns_ins, List.map_map]
      exact List.map_congr_left fun s hs => hrel.read_eq ha hg hb' hhome hs

/-- One op of the reverse sweep. -/
lemma AdjointRelated.step [AddCommMonoid V] (hg : ProducerGraph g) {K : Kernels U V S W}
    {b' : Binding} (hb' : LiveBinding g (InplaceScan.ghostFinal g roots) b')
    {p : InplaceScan × (ℕ → Bool)} {op : Op U} {rest : List (Op U)} {n : ℕ}
    (ha : ScanAt g (g.isRoot roots) (InplaceScan.ghostFinal g roots) n p (op :: rest))
    {fin fin' : Arena V} (hfin : ∀ s, (InplaceScan.ghostFinal g roots).2 s = false →
      ∀ e < g.len s, fin' ((InplaceScan.ghostFinal g roots).1.resolve s) e = fin s e)
    {o o' : LogEntry V S} (ho : o'.scratch = o.scratch) {α β : Arena V}
    (h : AdjointRelated g (n + 1) ((InplaceScan.ghost g (g.isRoot roots)).next p op) α β) :
    AdjointRelated g n p (backwardOp K g.bind fin op o α)
      (backwardOp K b' fin' (p.1.rewrite g (g.isRoot roots) op) o' β) := by
  by_cases he : p.1.eligible g (g.isRoot roots) op = true
  · exact h.prev_eligible ha hg hb' he
  rw [Bool.not_eq_true] at he
  by_cases hip : op.opcode.isInplaceStore = true
  · exact h.prev_inplace ha hg hb' hip
  rw [Bool.not_eq_true] at hip
  rw [ScanAt.rewrite_not_eligible he hip]
  by_cases hr : op.opcode.isRouted = true
  · refine h.prev_routed ha hg hb' he ?_
    rcases Opcode.isRouted_iff.1 hr with h | h | h
    · exact .inl h
    · exact .inr h
    · rw [hip] at h
      cases h
  · exact h.prev_kernel ha hg hb' (Graph.bind_home hg.noPrimal) (by simpa using hr) hfin ho

/-- `make_inplace_updates` preserves one gradient evaluation. -/
theorem makeInplaceUpdates_preserves [AddCommMonoid V] (hg : ProducerGraph g) (roots : List ℕ)
    (K : Kernels U V S W) (m : Arena V) (w : W) :
    g.GradientPreserved K (makeInplaceUpdates g roots).1 roots m m w := by
  have hb' := @liveBinding U g roots hg
  have hhome := Graph.bind_home hg.noPrimal
  set pf := InplaceScan.ghostFinal g roots with hpf
  set g' := (makeInplaceUpdates g roots).1 with hg'
  have hops : g'.ops = (InplaceScan.ghost g (g.isRoot roots)).run
      (InplaceScan.start g, fun _ => false) g.ops := by rw [hg', makeInplaceUpdates_eq]
  have hend : ∀ {p n}, ScanAt g (g.isRoot roots) pf n p [] →
      ∀ s, p = pf ∧ DefinedAt g.ops n s := fun h s => h.definedAt_nil s
  -- roots keep their names
  have hroot : ∀ r, g.isRoot roots r = true → pf.2 r = false ∧ pf.1.rename r = none := by
    intro r hr
    obtain ⟨n, hfinal⟩ : OnScan g roots pf [] :=
      Rewriter.final_invariant _ (onScan_next hg) onScan_start
    constructor
    · by_contra hz
      rw [Bool.not_eq_false] at hz
      rw [(hfinal.inv.stale r hz).1] at hr
      cases hr
    · by_contra hne
      obtain ⟨v, hv⟩ := Option.ne_none_iff_exists'.1 hne
      rw [(hfinal.inv.renamed r v hv).2.2.2.1] at hr
      cases hr
  have hsim : Rewriter.Simulated (fun σ τ => τ.world = σ.world ∧ ∀ s, pf.2 s = false →
      ∀ e < g.len s, τ.mem (pf.1.resolve s) e = σ.mem s e) (fun o o' => o'.scratch = o.scratch)
      ((InplaceScan.ghost g (g.isRoot roots)).mask (InplaceScan.start g, fun _ => false) g.ops)
      (g.forward K m w) (g'.forward K m w) := by
    unfold Graph.forward
    rw [hops]
    refine Rewriter.run_simulates _ (R := InplaceSweeps g roots) ?_ ?_ ?_ ?_
    · rintro p σ τ ⟨n, ha, hrel⟩
      refine ⟨hrel.world, fun s hz e hel => ?_⟩
      obtain ⟨rfl, hd⟩ := hend ha s
      exact hrel.cell s hd hz e hel
    · rintro p op k rest σ τ hk h
      obtain rfl : p.1.rewrite g (g.isRoot roots) op = k := Option.some.inj hk
      exact h.step hg hb'
    · rintro p op rest σ τ hk h
      cases hk
    · exact ⟨0, ScanAt.start rfl, rfl, rfl, fun s _ _ e _ => rfl⟩
  refine ⟨hsim.error_eq, fun hok => (hsim.final hok).1, fun hok r hr => ?_,
    fun hok seed s hs e hel => ?_⟩
  · obtain ⟨hz, hn⟩ := hroot r hr
    have hcell := (hsim.final hok).2 r hz
    rw [InplaceInv.resolve_of_none hn] at hcell
    refine Binding.read_eq_read (hb'.len r hn) fun e hel => ?_
    rw [hhome, hb'.home]
    exact hcell e (hb'.len r hn ▸ hel)
  · have hlen : (g.forward K m w).log.length = g.ops.length :=
      Machine.length_log_of_error_eq_none hok
    have hres : g'.resultSlot = g.resultSlot := rfl
    suffices hback : ∀ n, ScanAt g (g.isRoot roots) pf n (InplaceScan.start g, fun _ => false) g.ops →
        AdjointRelated g n (InplaceScan.start g, fun _ => false)
          (g.reverse K (g.forward K m w) seed) (g'.reverse K (g'.forward K m w) seed) from
      (hback 0 (ScanAt.start rfl)).cell s (.inr hs) rfl e hel
    unfold Graph.reverse
    rw [hops, hres]
    refine backRun_simulates _ (I := OnScan g roots)
      (R := fun p rest α β => ∀ n, ScanAt g (g.isRoot roots) pf n p rest → AdjointRelated g n p α β)
      (onScan_next hg) ?_ ?_ onScan_start hlen hsim.log ?_
    · rintro p op k rest o o' α β - hk ho h n ha
      obtain rfl : p.1.rewrite g (g.isRoot roots) op = k := Option.some.inj hk
      exact AdjointRelated.step hg hb' ha (hsim.final hok).2 ho (h (n + 1) (ha.next hg))
    · rintro p op rest o α β - hk
      cases hk
    · -- the seeds: the result keeps its name
      intro n ha
      change ScanAt _ _ _ n pf [] at ha
      change AdjointRelated g n pf _ _
      refine ⟨fun s _ hz e _ => ?_, fun s hz e _ => if_neg fun h => ?_⟩
      · have hiff : g.resultSlot = some (pf.1.resolve s) ↔ g.resultSlot = some s := by
          constructor
          · intro h
            obtain ⟨hzr, hnr⟩ := hroot _ (by simp [Graph.isRoot, h] :
              g.isRoot roots (pf.1.resolve s) = true)
            have := ha.inv.inj s _ hz hzr (InplaceInv.resolve_of_none hnr).symm
            rw [h, ← this]
          · intro h
            obtain ⟨-, hnr⟩ := hroot s (by simp [Graph.isRoot, h])
            rw [InplaceInv.resolve_of_none hnr, h]
        simp only [hiff]
      · obtain ⟨hzr, -⟩ := hroot s (by simp [Graph.isRoot, h.1])
        rw [hz] at hzr
        cases hzr

/-- A vector built by two element stores and read back. -/
def filledVectorGraph : Graph Unit where
  slots := [⟨2, false⟩, ⟨1, true⟩, ⟨2, false⟩, ⟨2, false⟩, ⟨1, false⟩]
  ops :=
    [{ opcode := .setIndex, out := 2, ins := [0, 1], idata := [0] },
     { opcode := .setIndex, out := 3, ins := [2, 1], idata := [1] },
     { opcode := .index, out := 4, ins := [3], idata := [1] }]
  resultSlot := some 4

/-- The second store of the vector becomes an in-place one, and the evaluation is the same. -/
theorem filledVectorGraph_preserves :
    filledVectorGraph.GradientPreserved (Kernels.empty Unit ℤ Unit Unit)
      (makeInplaceUpdates filledVectorGraph []).1 [] (fun s e => s + e) (fun s e => s + e) () :=
  makeInplaceUpdates_preserves ⟨⟨by decide, by decide, by decide, by decide⟩, by decide, by decide⟩
    [] _ _ ()

end Run

/-! ## A slot with two producers -/

/-- The output of the second store is written once more, by a store that does not copy it. -/
def overwrittenVectorGraph : Graph Unit where
  slots := [⟨2, false⟩, ⟨1, true⟩, ⟨2, false⟩, ⟨2, false⟩, ⟨1, false⟩]
  ops :=
    [{ opcode := .setIndex, out := 2, ins := [0, 1], idata := [0] },
     { opcode := .setIndex, out := 3, ins := [2, 1], idata := [1] },
     { opcode := .setIndex, out := 3, ins := [0, 1], idata := [0] },
     { opcode := .index, out := 4, ins := [3], idata := [1] }]
  resultSlot := some 4

/-- The second store takes over the buffer of its base and its output gets that name for good, so the
load reads the wrong version. -/
theorem overwrittenVectorGraph_not_preserved :
    EvalOrder overwrittenVectorGraph.ops ∧
    (∀ op ∈ overwrittenVectorGraph.ops, op.opcode.isStore = true →
      overwrittenVectorGraph.validStoreContract op = true) ∧
    ¬ overwrittenVectorGraph.GradientPreserved (Kernels.empty Unit ℤ Unit Unit)
      (makeInplaceUpdates overwrittenVectorGraph []).1 [] (fun s e => 10 * s + e)
      (fun s e => 10 * s + e) () := by
  refine ⟨by decide, by decide, fun h => ?_⟩
  have hroot := h.root_eq (by decide) 4 (by decide)
  revert hroot
  decide

end Stanli
