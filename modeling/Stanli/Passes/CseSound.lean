import Stanli.Graph.Adjoint
import Stanli.Graph.Session
import Stanli.Passes.Cse

/-!
# Value numbering preserves the model

The forward simulation (`CseRelated`) says where each value of the graph is found in the rewritten
one: in the slot that stands for it, once it is written.  It carries the table with it: while the key
of a survivor is current, running an op with that key would compute what the survivor's slot holds
and the scratch its source hands out.

In reverse, only the slots that a parameter reaches are compared.  Without merging active ops no such
slot is renamed, so the pullbacks of the ops that reach a parameter get and give the same adjoints.
-/

namespace Stanli

variable {U V S W : Type*}

namespace CseScan

variable {E : CseEnv U V S W} {st : CseScan} {op : Op U} {n m s : ℕ}

/-! ## The slots of the rewritten graph -/

/-- What a settled slot stands for does not change any more. -/
lemma before_stable (hs : E.g.Settled n s) (hnm : n ≤ m) (hm : m ≤ E.g.ops.length) :
    (E.before m).rename s = (E.before n).rename s ∧
      (E.before m).primal s = (E.before n).primal s := by
  induction m, hnm using Nat.le_induction with
  | base => exact ⟨rfl, rfl⟩
  | succ m hnm ih =>
    have hop := List.getElem?_eq_getElem (l := E.g.ops) hm
    have hstep : s ≠ (E.g.ops[m]).out ∨ (E.before m).survivor E E.g.ops[m] = none := by
      by_contra hcon
      rw [not_or, not_ne_iff] at hcon
      obtain ⟨v, hv⟩ := Option.ne_none_iff_exists'.1 hcon.2
      have := ((survivor_eq_some hv).1.soleWriter hop).lt_of_settled (hcon.1 ▸ hs)
      omega
    obtain ⟨hr, hp⟩ := step_rename _ _ _ hstep
    rw [CseEnv.before_succ hop, hr, hp]
    exact ih (by omega)

lemma emit_kept {sources : List ℕ} (hv : st.survivor E op = none) : st.emit E sources op =
    some { op.mapIns st.resolve with
      primalSource := if st.pos ∈ sources then some op.out else op.primalSource } := by
  simp only [emit, hv]

lemma emit_shared {sources : List ℕ} {v : Survivor} (hv : st.survivor E op = some v)
    (hsh : st.shares E op = true) :
    st.emit E sources op = some { op.mapIns st.resolve with primalSource := some v.out } := by
  simp only [emit, hv, hsh, if_true]

lemma emit_removed {sources : List ℕ} {v : Survivor} (hv : st.survivor E op = some v)
    (hsh : st.shares E op = false) : st.emit E sources op = none := by
  simp [emit, hv, hsh]

/-- A surviving op writes what it wrote. -/
lemma emit_outs {sources : List ℕ} {k : Op U} (hk : st.emit E sources op = some k) :
    k.out = op.out ∧ k.out2 = op.out2 ∧ k.call = op.call ∧ k.ins = op.ins.map st.resolve := by
  unfold emit at hk
  split at hk
  · split_ifs at hk
    obtain rfl := Option.some.inj hk
    exact ⟨rfl, rfl, rfl, rfl⟩
  · obtain rfl := Option.some.inj hk
    exact ⟨rfl, rfl, rfl, rfl⟩

/-- A slot that an op writes stands for itself before it, and after it if the op repeats no other. -/
lemma Invariant.valueSlot_of_mem (h : Invariant E n st) (hop : E.g.ops[n]? = some op)
    (hs : s ∈ op.outs) : st.valueSlot s = s := by
  obtain ⟨hr, hp⟩ := h.rename_of_mem hop hs
  simp [valueSlot, resolve, source, hr, hp]

/-- Later ops leave the slot that stands for another one alone. -/
lemma Invariant.valueSlot_notMem (h : Invariant E n st) (hop : E.g.ops[n]? = some op)
    (hs : s ∉ op.outs) : st.valueSlot s ∉ op.outs := by
  have hold : ∀ x y, st.rename x = some y ∨ st.primal x = some y → y ∉ op.outs := by
    intro x y hxy
    obtain ⟨d, hd, j, hj, -, hy⟩ := (h.merged x y hxy).writers
    exact hy.notMem hop (by omega)
  have hres : st.resolve s ∉ op.outs := by
    unfold resolve
    cases hr : st.rename s with
    | none => exact hs
    | some y => exact hold s y (.inl hr)
  unfold valueSlot source
  cases hp : st.primal (st.resolve s) with
  | none => exact hres
  | some y => exact hold _ y (.inr hp)

/-- An op changes what stands for its own output only. -/
lemma Invariant.valueSlot_step (h : Invariant E n st) (hop : E.g.ops[n]? = some op)
    (hs : E.g.Settled n s) (hso : s ∉ op.outs) : (st.step E op).valueSlot s = st.valueSlot s := by
  have hne : s ≠ op.out := fun heq => hso (by simp [heq])
  have hres : (st.step E op).resolve s = st.resolve s := by
    unfold resolve
    rw [(step_rename E _ op (.inl hne)).1]
  unfold valueSlot source
  rw [hres]
  cases hv : st.survivor E op with
  | none => rw [(step_rename E st op (.inr hv)).2]
  | some v =>
    have hne' : st.resolve s ≠ op.out := by
      intro heq
      have := ((survivor_eq_some hv).1.soleWriter hop).lt_of_settled
        (heq ▸ h.settled_resolve hs)
      omega
    rw [(step_rename E _ op (.inl hne')).2]

/-- After a repeated op its output stands for the survivor's. -/
lemma Invariant.valueSlot_survivor (h : Invariant E n st) (hop : E.g.ops[n]? = some op)
    {v : Survivor} (hv : st.survivor E op = some v) : (st.step E op).valueSlot op.out = v.out := by
  obtain ⟨hr, -⟩ := h.rename_of_mem hop (s := op.out) (by simp)
  have hroot := (h.merged_survivor hop hv).root
  rcases step_cases E st op with ⟨w, hw, -, hst⟩ | ⟨w, hw, -, hst⟩ | ⟨hw, -⟩
  · obtain rfl := Option.some.inj (hv.symm.trans hw)
    rw [hst]
    simp [valueSlot, resolve, source, hr]
  · obtain rfl := Option.some.inj (hv.symm.trans hw)
    rw [hst] at hroot ⊢
    simp only [valueSlot, resolve, source, Function.update_self, Option.getD_some] at hroot ⊢
    rw [hroot.2, Option.getD_none]
  · rw [hv] at hw
    cases hw

/-- What stands for a slot is as long as it. -/
lemma Invariant.len_valueSlot (h : Invariant E n st) (s : ℕ) :
    E.g.len (st.resolve s) = E.g.len s ∧ E.g.len (st.valueSlot s) = E.g.len s := by
  have hres : E.g.len (st.resolve s) = E.g.len s := by
    unfold resolve
    cases hr : st.rename s with
    | none => rfl
    | some y => exact (h.merged s y (.inl hr)).len.symm
  refine ⟨hres, ?_⟩
  unfold valueSlot source
  cases hp : st.primal (st.resolve s) with
  | none => exact hres
  | some y => exact (h.merged _ y (.inr hp)).len.symm.trans hres

end CseScan

namespace CseEnv

variable {E : CseEnv U V S W} {op : Op U} {n s : ℕ}

lemma final_take (n : ℕ) : E.rewriter.final E.init (E.g.ops.take n) = E.before n := by
  rw [Rewriter.final_eq_foldl]
  rfl

/-- Where the ops of the rewritten graph come from. -/
lemma getElem?_graph_ops {m : ℕ} {k : Op U} : E.graph.ops[m]? = some k ↔
    ∃ n op, E.g.ops[n]? = some op ∧
      (E.before n).emit E (E.scan E.g.ops).sources op = some k ∧
      E.rewriter.rank E.init E.g.ops n = m := by
  rw [show E.graph.ops = E.rewriter.run E.init E.g.ops from rfl, Rewriter.getElem?_run_iff]
  simp only [final_take]
  rfl

lemma mem_graph_ops {k : Op U} : k ∈ E.graph.ops ↔ ∃ n op, E.g.ops[n]? = some op ∧
    (E.before n).emit E (E.scan E.g.ops).sources op = some k := by
  rw [List.mem_iff_getElem?]
  simp only [getElem?_graph_ops]
  constructor
  · rintro ⟨m, n, op, h1, h2, -⟩
    exact ⟨n, op, h1, h2⟩
  · rintro ⟨n, op, h1, h2⟩
    exact ⟨_, n, op, h1, h2, rfl⟩

@[simp] lemma graph_isParam (s : ℕ) : E.graph.isParam s = E.g.isParam s := by
  simp only [Graph.isParam, graph, List.getElem?_mapIdx]
  cases E.g.slots[s]? with
  | none => rfl
  | some slot =>
    simp only [Option.map_some, Option.getD_some]
    split_ifs <;> rfl

/-- A slot that is not removed keeps its length. -/
lemma graph_len (hs : (E.scan E.g.ops).rename s = none) : E.graph.len s = E.g.len s := by
  simp only [Graph.len, graph, List.getElem?_mapIdx, hs, Option.isSome_none, Bool.false_eq_true,
    if_false]
  cases E.g.slots[s]? <;> rfl

lemma scan_stable (hs : E.g.Settled n s) (hn : n ≤ E.g.ops.length) :
    (E.scan E.g.ops).rename s = (E.before n).rename s ∧
      (E.scan E.g.ops).primal s = (E.before n).primal s := by
  rw [← before_length]
  exact CseScan.before_stable hs hn (Nat.le_refl _)

/-- The positions marked as sources stay marked. -/
lemma sources_mono {m : ℕ} (hnm : n ≤ m) (hm : m ≤ E.g.ops.length) :
    (E.before n).sources ⊆ (E.before m).sources := by
  induction m, hnm using Nat.le_induction with
  | base => exact List.Subset.refl _
  | succ m hnm ih =>
    refine List.Subset.trans (ih (by omega)) ?_
    rw [before_succ (List.getElem?_eq_getElem (l := E.g.ops) hm)]
    rcases CseScan.step_cases E (E.before m) E.g.ops[m] with
      ⟨v, -, -, hst⟩ | ⟨v, -, -, hst⟩ | ⟨-, hst⟩ <;> rw [hst]
    · exact List.subset_cons_self _ _
    · exact List.Subset.refl _
    · exact List.Subset.refl _

/-- A removed op. -/
lemma scan_of_removed (hop : E.g.ops[n]? = some op) {v : Survivor}
    (hv : (E.before n).survivor E op = some v) (hsh : (E.before n).shares E op = false) :
    (E.scan E.g.ops).rename op.out = some v.out := by
  have hn := (List.getElem?_eq_some_iff.1 hop).1
  obtain ⟨hr, -⟩ := scan_stable (n := n + 1) (s := op.out) (E := E)
    (fun j _ => ⟨n, by omega, op, hop, by simp⟩) hn
  rcases CseScan.step_cases E (E.before n) op with ⟨w, -, hs, -⟩ | ⟨w, hw, -, hst⟩ | ⟨hw, -⟩
  · rw [hsh] at hs
    cases hs
  · obtain rfl := Option.some.inj (hv.symm.trans hw)
    rw [before_succ hop, hst] at hr
    exact hr.trans (Function.update_self ..)
  · rw [hv] at hw
    cases hw

/-- A slot that is not removed has an adjoint when it had one. -/
lemma graph_active (hs : (E.scan E.g.ops).rename s = none) :
    E.graph.bind.active s = E.g.bind.active s := by
  have hw : E.graph.written s = E.g.written s := by
    rw [Bool.eq_iff_iff]
    simp only [Graph.written, List.any_eq_true, decide_eq_true_eq]
    constructor
    · rintro ⟨k, hk, hsk⟩
      obtain ⟨n, op, hop, he⟩ := mem_graph_ops.1 hk
      obtain ⟨h1, h2, -⟩ := CseScan.emit_outs he
      exact ⟨op, List.mem_of_getElem? hop, by simpa [h1, h2] using hsk⟩
    · rintro ⟨op, hmem, hso⟩
      obtain ⟨n, hop⟩ := List.mem_iff_getElem?.1 hmem
      cases he : (E.before n).emit E (E.scan E.g.ops).sources op with
      | some k =>
        obtain ⟨h1, h2, -⟩ := CseScan.emit_outs he
        exact ⟨k, mem_graph_ops.2 ⟨n, op, hop, he⟩, by simpa [h1, h2] using hso⟩
      | none =>
        cases hv : (E.before n).survivor E op with
        | none => simp [CseScan.emit_kept hv] at he
        | some v =>
          cases hsh : (E.before n).shares E op with
          | true => simp [CseScan.emit_shared hv hsh] at he
          | false =>
            obtain rfl := (CseScan.survivor_eq_some hv).1.outs.1 hso
            rw [scan_of_removed hop hv hsh] at hs
            cases hs
  simp [Graph.bind, hw]

section Last

variable (horder : EvalOrder E.g.ops)

include horder

lemma invariant_scan : CseScan.Invariant E E.g.ops.length (E.scan E.g.ops) :=
  before_length (E := E) ▸ CseScan.invariant_before horder (Nat.le_refl _)

/-- The outputs of an op that repeats no other stand for themselves in the end. -/
lemma scan_of_kept (hop : E.g.ops[n]? = some op) (hv : (E.before n).survivor E op = none)
    (hs : s ∈ op.outs) :
    (E.scan E.g.ops).rename s = none ∧ (E.scan E.g.ops).primal s = none := by
  have hn := (List.getElem?_eq_some_iff.1 hop).1
  have hI := CseScan.invariant_before horder (Nat.le_of_lt hn)
  obtain ⟨hr, hp⟩ := hI.rename_of_mem hop hs
  obtain ⟨hr', hp'⟩ := scan_stable (n := n + 1) (s := s) (E := E)
    (fun j _ => ⟨n, by omega, op, hop, hs⟩) hn
  obtain ⟨hr'', hp''⟩ := CseScan.step_rename _ _ _ (s := s) (.inr hv)
  rw [before_succ hop] at hr' hp'
  exact ⟨hr'.trans (hr''.trans hr), hp'.trans (hp''.trans hp)⟩

/-- An op that shares a survivor's primal. -/
lemma scan_of_shared (hop : E.g.ops[n]? = some op) {v : Survivor}
    (hv : (E.before n).survivor E op = some v) (hsh : (E.before n).shares E op = true) :
    (E.scan E.g.ops).rename op.out = none ∧ (E.scan E.g.ops).primal op.out = some v.out ∧
      v.pos ∈ (E.scan E.g.ops).sources := by
  have hn := (List.getElem?_eq_some_iff.1 hop).1
  have hI := CseScan.invariant_before horder (Nat.le_of_lt hn)
  obtain ⟨hr, hp⟩ := scan_stable (n := n + 1) (s := op.out) (E := E)
    (fun j _ => ⟨n, by omega, op, hop, by simp⟩) hn
  have hsub := sources_mono (E := E) (n := n + 1) hn (Nat.le_refl _)
  rw [before_length] at hsub
  rcases CseScan.step_cases E (E.before n) op with ⟨w, hw, -, hst⟩ | ⟨w, -, hs, -⟩ | ⟨hw, -⟩
  · obtain rfl := Option.some.inj (hv.symm.trans hw)
    rw [before_succ hop, hst] at hr hp hsub
    exact ⟨hr.trans (hI.rename_of_mem hop (by simp)).1, hp.trans (Function.update_self ..),
      hsub (by simp)⟩
  · rw [hsh] at hs
    cases hs
  · rw [hv] at hw
    cases hw

/-- The op behind a slot that stands for another one. -/
lemma exists_merged {x y : ℕ}
    (hxy : (E.scan E.g.ops).rename x = some y ∨ (E.scan E.g.ops).primal x = some y) :
    ∃ n op v, E.g.ops[n]? = some op ∧ (E.before n).survivor E op = some v ∧ x = op.out ∧
      y = v.out ∧ ((E.scan E.g.ops).rename x = some y ↔ (E.before n).shares E op = false) ∧
      ((E.scan E.g.ops).primal x = some y ↔ (E.before n).shares E op = true) := by
  obtain ⟨n, hn, -, -, hx, -⟩ := ((invariant_scan horder).merged x y hxy).writers
  have hop := List.getElem?_eq_getElem (l := E.g.ops) hn
  have hI := CseScan.invariant_before horder (Nat.le_of_lt hn)
  obtain ⟨hr, hp⟩ := scan_stable (n := n + 1) (s := x) (E := E) (hx.settled (by omega)) hn
  rw [before_succ hop] at hr hp
  have hstep : ((E.before n).step E E.g.ops[n]).rename x = some y ∨
      ((E.before n).step E E.g.ops[n]).primal x = some y := by rwa [← hr, ← hp]
  rcases hI.step_slots hop hstep with ⟨hnot, -⟩ | ⟨v, hv, rfl, rfl, hsh⟩
  · obtain ⟨o, ho, hso⟩ := hx.writes
    obtain rfl := Option.some.inj (hop.symm.trans ho)
    exact absurd hso hnot
  · exact ⟨n, _, v, hop, hv, rfl, rfl, by rw [hr, hp]; exact hsh⟩

/-- A survivor's slot is never the output of the op that repeats it. -/
lemma survivor_out_ne (hop : E.g.ops[n]? = some op) {v : Survivor}
    (hv : (E.before n).survivor E op = some v) : v.out ≠ op.out := by
  have hI := CseScan.invariant_before horder (Nat.le_of_lt (List.getElem?_eq_some_iff.1 hop).1)
  have he := hI.survivor_entry hv
  intro heq
  exact (he.soleWriter.notMem hop (Nat.ne_of_gt he.lt)) (by simp [heq])

/-- The cached ops of the rewritten graph are the ones that share a survivor's primal. -/
lemma cached_iff (hnp : ∀ op ∈ E.g.ops, op.primalSource = none) (hop : E.g.ops[n]? = some op)
    {k : Op U} (hk : (E.before n).emit E (E.scan E.g.ops).sources op = some k) :
    k.cached = true ↔ ∃ v, (E.before n).survivor E op = some v ∧ (E.before n).shares E op = true ∧
      k.primalSource = some v.out := by
  cases hv : (E.before n).survivor E op with
  | none =>
    rw [CseScan.emit_kept hv] at hk
    obtain rfl := Option.some.inj hk
    rw [hnp op (List.mem_of_getElem? hop)]
    constructor
    · intro hc
      simp only [Op.cached] at hc
      split at hc
      · rename_i t ht
        split_ifs at ht
        obtain rfl := Option.some.inj ht
        simp at hc
      · cases hc
    · rintro ⟨v, h, -⟩
      cases h
  | some v =>
    cases hsh : (E.before n).shares E op with
    | false =>
      rw [CseScan.emit_removed hv hsh] at hk
      cases hk
    | true =>
      rw [CseScan.emit_shared hv hsh] at hk
      obtain rfl := Option.some.inj hk
      have hne := survivor_out_ne horder hop hv
      simp [Op.cached, hne]

/-- The value buffer of each slot. -/
lemma graph_home (hnp : ∀ op ∈ E.g.ops, op.primalSource = none) (s : ℕ) :
    E.graph.bind.home s = (E.scan E.g.ops).source s := by
  have hcached : ∀ k ∈ E.graph.ops, k.cached = true →
      (E.scan E.g.ops).primal k.out = k.primalSource ∧ k.primalSource.isSome = true := by
    intro k hk hc
    obtain ⟨n, op, hop, he⟩ := mem_graph_ops.1 hk
    obtain ⟨v, hv, hsh, hps⟩ := (cached_iff horder hnp hop he).1 hc
    rw [(CseScan.emit_outs he).1, hps]
    exact ⟨(scan_of_shared horder hop hv hsh).2.1, rfl⟩
  unfold CseScan.source
  cases hp : (E.scan E.g.ops).primal s with
  | none =>
    refine Graph.home_of_forall fun k hk hc => ?_
    rintro rfl
    obtain ⟨h, hsome⟩ := hcached k hk hc
    rw [← h, hp] at hsome
    cases hsome
  | some y =>
    rw [Option.getD_some]
    refine Graph.home_of_cached ?_ fun k hk hc => ?_
    · obtain ⟨n, op, v, hop, hv, rfl, rfl, -, hsh⟩ := exists_merged horder (.inr hp)
      have he := @CseScan.emit_shared U V S W E _ op (E.scan E.g.ops).sources v hv (hsh.1 hp)
      exact ⟨_, mem_graph_ops.2 ⟨n, op, hop, he⟩,
        (cached_iff horder hnp hop he).2 ⟨v, hv, hsh.1 hp, rfl⟩, rfl⟩
    · rintro rfl
      rw [← (hcached k hk hc).1, hp]

end Last

/-- Resolved inputs are as long as the inputs. -/
lemma len_resolve (hg : SelfContained E.g) (hop : E.g.ops[n]? = some op) {s : ℕ}
    (hs : s ∈ op.ins) : E.graph.bind.len ((E.before n).resolve s) = E.g.len s := by
  have hn := (List.getElem?_eq_some_iff.1 hop).1
  have hI := CseScan.invariant_before hg.evalOrder (Nat.le_of_lt hn)
  have hsettled := hg.evalOrder.settled hop hs
  have hroot : (E.before n).rename ((E.before n).resolve s) = none := by
    unfold CseScan.resolve
    cases hr : (E.before n).rename s with
    | none => exact hr
    | some y => exact (hI.merged s y (.inl hr)).root.1
  refine (CseEnv.graph_len ?_).trans (hI.len_valueSlot s).1
  rw [(CseEnv.scan_stable (hI.settled_resolve hsettled) (Nat.le_of_lt hn)).1, hroot]

/-- A mergeable op does not write in place: its output would have been written before. -/
lemma isInplaceStore_eq_false (hg : SelfContained E.g) (hop : E.g.ops[n]? = some op)
    (hm : E.Mergeable op) : op.opcode.isInplaceStore = false := by
  cases hip : op.opcode.isInplaceStore with
  | false => rfl
  | true =>
    have := (hm.soleWriter hop).lt_of_settled
      (hg.evalOrder.settled hop (hg.inplace op (List.mem_of_getElem? hop) hip))
    omega

end CseEnv

/-! ## The forward sweep -/

/-- The states of the two sweeps before op `n`: every settled slot has its value in the slot that
stands for it, and for every current key the survivor's slot holds what an op with that key would
compute, and its source hands out the scratch. -/
structure CseRelated [Zero V] (E : CseEnv U V S W) (n : ℕ) (σ τ : SweepState V S W) : Prop where
  world : τ.world = σ.world
  cell : ∀ s, E.g.Settled n s → ∀ e < E.g.len s, τ.mem ((E.before n).valueSlot s) e = σ.mem s e
  entry : ∀ key v, (E.before n).table key = some v → (E.before n).Current key →
    ∃ o buf scratch, E.g.ops[v.pos]? = some o ∧
      o.value E.K (E.g.len v.out) (key.ins.map fun q => E.g.bind.read τ.mem q.1) =
        .ok (buf, scratch) ∧
      (∀ e < E.g.len v.out, τ.mem v.out e = buf e) ∧
      (v.pos ∈ (E.scan E.g.ops).sources → τ.shared v.out = some scratch)

namespace CseRelated

variable [Zero V] {E : CseEnv U V S W} {op : Op U} {n : ℕ} {σ τ : SweepState V S W}

/-- Ops read what they would. -/
lemma read_eq (h : CseRelated E n σ τ) (hg : SelfContained E.g) (hop : E.g.ops[n]? = some op) {s : ℕ}
    (hs : s ∈ op.ins) :
    E.graph.bind.home ((E.before n).resolve s) = (E.before n).valueSlot s ∧
      ∀ e < E.g.len s, τ.mem (E.graph.bind.home ((E.before n).resolve s)) e = σ.mem s e := by
  have hn := (List.getElem?_eq_some_iff.1 hop).1
  have hI := CseScan.invariant_before hg.evalOrder (Nat.le_of_lt hn)
  have hsettled := hg.evalOrder.settled hop hs
  have hhome : E.graph.bind.home ((E.before n).resolve s) = (E.before n).valueSlot s := by
    rw [CseEnv.graph_home hg.evalOrder hg.noPrimal, CseScan.valueSlot, CseScan.source,
      CseScan.source,
      (CseEnv.scan_stable (hI.settled_resolve hsettled) (Nat.le_of_lt hn)).2]
  exact ⟨hhome, fun e he => by rw [hhome]; exact h.cell s hsettled e he⟩

/-- The key of an op reads what the op reads. -/
lemma key_read (h : CseRelated E n σ τ) (hg : SelfContained E.g) (hop : E.g.ops[n]? = some op) :
    ((E.before n).key E.g (op.mapIns (E.before n).resolve)).ins.map
        (fun q => E.g.bind.read τ.mem q.1) = op.ins.map (E.g.bind.read σ.mem) := by
  have hI := CseScan.invariant_before hg.evalOrder
    (Nat.le_of_lt (List.getElem?_eq_some_iff.1 hop).1)
  simp only [CseScan.key, Op.mapIns_ins, List.map_map]
  refine List.map_congr_left fun s hs => ?_
  have hlen := (hI.len_valueSlot s).2
  refine Binding.read_eq_read hlen fun e he => ?_
  rw [Graph.bind_home hg.noPrimal]
  exact h.cell s (hg.evalOrder.settled hop hs) e (hlen ▸ he)

/-- An op that repeats another one computes what the survivor's slot holds, and its scratch. -/
lemma survivor_value (h : CseRelated E n σ τ) (hg : SelfContained E.g)
    (hop : E.g.ops[n]? = some op) {v : Survivor} (hv : (E.before n).survivor E op = some v) :
    ∃ buf scratch, op.value E.K (E.g.len op.out) (op.ins.map (E.g.bind.read σ.mem)) =
        .ok (buf, scratch) ∧
      E.g.len v.out = E.g.len op.out ∧ (∀ e < E.g.len op.out, τ.mem v.out e = buf e) ∧
      (v.pos ∈ (E.scan E.g.ops).sources → τ.shared v.out = some scratch) := by
  have hI := CseScan.invariant_before hg.evalOrder
    (Nat.le_of_lt (List.getElem?_eq_some_iff.1 hop).1)
  obtain ⟨hm, -, htable⟩ := CseScan.survivor_eq_some hv
  obtain ⟨o, buf, scratch, ho, hvalue, hbuf, hshared⟩ :=
    h.entry _ v htable (CseScan.key_current _ _ _)
  have hentry := hI.survivor_entry hv
  obtain ⟨o', ho', -, -, hcall⟩ := hentry.op
  obtain rfl := Option.some.inj (ho.symm.trans ho')
  have hcall' : op.call = o.call := by
    rw [hcall]
    simp [Op.call, CseKey.call, CseScan.key, Op.mapIns, hm.udata]
  have hlen : E.g.len v.out = E.g.len op.out := hentry.len
  rw [h.key_read hg hop, hlen, ← Op.value_congr E.K hcall'] at hvalue
  exact ⟨buf, scratch, hvalue, hlen, fun e he => hbuf e (by omega), hshared⟩

/-- An op that repeats another one does not fail. -/
lemma survivor_step (h : CseRelated E n σ τ) (hg : SelfContained E.g)
    (hop : E.g.ops[n]? = some op) {v : Survivor} (hv : (E.before n).survivor E op = some v) :
    ∃ buf' scratch, forwardOp E.K E.g.bind op σ =
        .ok ({ σ with mem := Function.update σ.mem op.out buf' },
          ⟨op.shown E.g.bind σ.mem, scratch⟩) ∧
      (∀ e < E.g.len op.out, buf' e = τ.mem v.out e) ∧
      (v.pos ∈ (E.scan E.g.ops).sources → τ.shared v.out = some scratch) := by
  have hmem := List.mem_of_getElem? hop
  obtain ⟨hm, -, -⟩ := CseScan.survivor_eq_some hv
  obtain ⟨buf, scratch, hvalue, hlen, hbuf, hshared⟩ := h.survivor_value hg hop hv
  rcases forwardOp_value E.K E.g.bind σ (hg.noPrimal op hmem) hm.noEffect
    hm.out2 (CseEnv.isInplaceStore_eq_false hg hop hm) (hg.load_len op hmem) (hg.inBounds op hmem) with
    ⟨e, he, -⟩ | ⟨buf₁, scratch₁, buf', h1, h2, h3⟩
  · rw [Graph.bind_len, hvalue] at he
    cases he
  · rw [Graph.bind_len, hvalue] at h1
    obtain ⟨rfl, rfl⟩ := Prod.mk.inj (Except.ok.inj h1)
    rw [Graph.bind_home hg.noPrimal, id_eq] at h2
    exact ⟨buf', scratch, h2, fun e he => (h3 e he).trans (hbuf e he).symm, hshared⟩

/-- After an op that repeats another one. -/
lemma next_survivor (h : CseRelated E n σ τ) (hg : SelfContained E.g)
    (hop : E.g.ops[n]? = some op) {v : Survivor} (hv : (E.before n).survivor E op = some v)
    {σ' : SweepState V S W} (hworld : σ'.world = σ.world)
    (hframe : ∀ s, s ≠ op.out → σ'.mem s = σ.mem s)
    (hout : ∀ e < E.g.len op.out, σ'.mem op.out e = τ.mem v.out e) :
    CseRelated E (n + 1) σ' τ := by
  have hI := CseScan.invariant_before hg.evalOrder
    (Nat.le_of_lt (List.getElem?_eq_some_iff.1 hop).1)
  have hm := (CseScan.survivor_eq_some hv).1
  refine ⟨h.world.trans hworld.symm, fun s hs e he => ?_, fun key w hkey hcur => ?_⟩
  · rw [CseEnv.before_succ hop]
    by_cases hso : s = op.out
    · subst hso
      rw [hI.valueSlot_survivor hop hv, hout e he]
    · have hnot : s ∉ op.outs := fun hmem => hso (hm.outs.1 hmem)
      have hs' := hs.of_succ hop hnot
      rw [hI.valueSlot_step hop hs' hnot, hframe s hso]
      exact h.cell s hs' e he
  · rw [CseEnv.before_succ hop] at hkey hcur
    have hold : (E.before n).table key = some w := by
      rcases CseScan.step_cases E (E.before n) op with
        ⟨_, -, -, hst⟩ | ⟨_, -, -, hst⟩ | ⟨hnone, -⟩
      · rwa [hst] at hkey
      · rwa [hst] at hkey
      · rw [hv] at hnone
        cases hnone
    exact h.entry key w hold ((hI.entry key w hold).current hcur)

/-- The op that stays in the place of one that repeats no other. -/
def keptOp (E : CseEnv U V S W) (n : ℕ) (op : Op U) : Op U :=
  { op.mapIns (E.before n).resolve with
    primalSource :=
      if (E.before n).pos ∈ (E.scan E.g.ops).sources then some op.out else op.primalSource }

/-- The entries of the table after an op that repeats no other. -/
lemma next_kept (h : CseRelated E n σ τ) (hg : SelfContained E.g) (hop : E.g.ops[n]? = some op)
    (hv : (E.before n).survivor E op = none) {σ' τ' : SweepState V S W} {o o' : LogEntry V S}
    (hσ : forwardOp E.K E.g.bind op σ = .ok (σ', o)) (hshared : τ'.shared = τ.shared)
    (hp : StepPair op E.g.len σ τ σ' τ' o o') :
    CseRelated E (n + 1) σ' { τ' with shared := (keptOp E n op).share o'.scratch τ'.shared } := by
  have hI := CseScan.invariant_before hg.evalOrder
    (Nat.le_of_lt (List.getElem?_eq_some_iff.1 hop).1)
  have hmem := List.mem_of_getElem? hop
  have hread : ∀ {key : CseKey}, (∀ q ∈ key.ins, q.1 ∉ op.outs) →
      (key.ins.map fun q => E.g.bind.read τ'.mem q.1) =
        key.ins.map fun q => E.g.bind.read τ.mem q.1 := by
    intro key hkey
    refine List.map_congr_left fun q hq => Binding.read_eq_read rfl fun e _ => ?_
    rw [Graph.bind_home hg.noPrimal, id_eq, (hp.frame _ (hkey q hq)).2]
  refine ⟨hp.world, fun s hs e he => ?_, fun key w hkey hcur => ?_⟩
  · rw [CseEnv.before_succ hop]
    by_cases hso : s ∈ op.outs
    · have hs' : ((E.before n).step E op).valueSlot s = s := by
        obtain ⟨hr, hpr⟩ := hI.rename_of_mem hop hso
        obtain ⟨hr', hpr'⟩ := CseScan.step_rename E _ op (s := s) (.inr hv)
        simp [CseScan.valueSlot, CseScan.resolve, CseScan.source, hr, hr', hpr, hpr']
      rw [hs']
      exact hp.outs s hso e he
    · have hs' := hs.of_succ hop hso
      rw [hI.valueSlot_step hop hs' hso, (hp.frame s hso).1,
        (hp.frame _ (hI.valueSlot_notMem hop hso)).2]
      exact h.cell s hs' e he
  · rw [CseEnv.before_succ hop] at hkey hcur
    by_cases hold : (E.before n).table key = some w
    · -- the entry was there: neither its inputs nor its survivor are written
      have hentry := hI.entry key w hold
      obtain ⟨k, buf, scratch, ho, hvalue, hbuf, hsh⟩ :=
        h.entry key w hold (hentry.current hcur)
      have hlt := hentry.lt
      have hnot : w.out ∉ op.outs := hentry.soleWriter.notMem hop (by omega)
      have hne : w.out ≠ op.out := fun heq => hnot (by simp [heq])
      refine ⟨k, buf, scratch, ho, ?_, fun e he => ?_, fun hsrc => ?_⟩
      · rw [hread fun q hq => hentry.notMem_outs hop hcur hq]
        exact hvalue
      · rw [(hp.frame _ hnot).2]
        exact hbuf e he
      · have hfun : (keptOp E n op).share o'.scratch τ'.shared w.out = τ'.shared w.out := by
          unfold Op.share
          split_ifs
          · exact Function.update_of_ne hne _ _
          · rfl
        refine hfun.trans ?_
        rw [hshared]
        exact hsh hsrc
    · -- the op itself has entered the table
      obtain ⟨hc, rfl, rfl⟩ : E.candidate (op.mapIns (E.before n).resolve) = true ∧
          key = (E.before n).key E.g (op.mapIns (E.before n).resolve) ∧ w = ⟨n, op.out⟩ := by
        rcases CseScan.step_cases E (E.before n) op with
          ⟨v, hv', -, -⟩ | ⟨v, hv', -, -⟩ | ⟨-, hst⟩
        · rw [hv] at hv'
          cases hv'
        · rw [hv] at hv'
          cases hv'
        · rw [hst] at hkey
          dsimp only at hkey
          split_ifs at hkey with hc
          · by_cases hk : key = (E.before n).key E.g (op.mapIns (E.before n).resolve)
            · subst hk
              rw [Function.update_self, hI.pos] at hkey
              exact ⟨hc, rfl, (Option.some.inj hkey).symm⟩
            · rw [Function.update_of_ne hk] at hkey
              exact absurd hkey hold
          · exact absurd hkey hold
      obtain ⟨hm, -⟩ := CseEnv.Mergeable.of_candidate hc
      rcases forwardOp_value E.K E.g.bind σ (hg.noPrimal op hmem) hm.noEffect
        hm.out2 (CseEnv.isInplaceStore_eq_false hg hop hm) (hg.load_len op hmem) (hg.inBounds op hmem) with
        ⟨e, -, he⟩ | ⟨buf, scratch, buf', h1, h2, h3⟩
      · rw [hσ] at he
        cases he
      · rw [hσ] at h2
        obtain ⟨rfl, rfl⟩ := Prod.mk.inj (Except.ok.inj h2)
        refine ⟨op, buf, scratch, hop, ?_, fun e he => ?_, fun hsrc => ?_⟩
        · rw [hread fun q hq => ?_, h.key_read hg hop]
          · exact h1
          · obtain ⟨s, hs, rfl⟩ := CseScan.mem_key_ins hq
            exact hI.valueSlot_notMem_of_mergeable hg.evalOrder hop hm hs
        · refine (hp.outs op.out (by simp) e he).trans ?_
          rw [Graph.bind_home hg.noPrimal]
          simpa using h3 e he
        · have hsrc' : (keptOp E n op).primalSource = some op.out := by
            simp only [keptOp, hI.pos, hsrc, if_true]
          have hout : (keptOp E n op).out = op.out := rfl
          simp [Op.share, hsrc', hout, hp.scratch]

/-- An op that repeats no other runs in both sweeps. -/
lemma step_kept (h : CseRelated E n σ τ) (hg : SelfContained E.g) (hop : E.g.ops[n]? = some op)
    (hv : (E.before n).survivor E op = none) :
    (∃ e, forwardOp E.K E.g.bind op σ = .error e ∧
      forwardOp E.K E.graph.bind (keptOp E n op) τ = .error e) ∨
    ∃ σ' o τ' o', forwardOp E.K E.g.bind op σ = .ok (σ', o) ∧
      forwardOp E.K E.graph.bind (keptOp E n op) τ = .ok (τ', o') ∧
      (o'.inputs = o.inputs ∧ o'.scratch = o.scratch) ∧ CseRelated E (n + 1) σ' τ' := by
  have hI := CseScan.invariant_before hg.evalOrder
    (Nat.le_of_lt (List.getElem?_eq_some_iff.1 hop).1)
  have hmem := List.mem_of_getElem? hop
  have hnp := hg.noPrimal op hmem
  have hlast : ∀ s ∈ op.outs, (E.scan E.g.ops).rename s = none ∧
      (E.scan E.g.ops).primal s = none :=
    fun s hs => CseEnv.scan_of_kept hg.evalOrder hop hv hs
  have hcached : (keptOp E n op).cached = false := by
    unfold keptOp Op.cached
    rw [hnp]
    split_ifs <;> simp
  have hplain : ({ keptOp E n op with primalSource := none } : Op U) =
      op.mapIns (E.before n).resolve := by
    unfold keptOp Op.mapIns
    rw [hnp]
  have hold : op.opcode = .index ∨ op.opcode.isInplaceStore = true → ∀ e < E.g.bind.len op.out,
      (op.opcode = .index → e ≠ 0) → τ.mem op.out e = σ.mem op.out e := by
    rintro (hi | hip) e he hne
    · have hlen := hg.load_len op hmem hi
      have hne' := hne hi
      have he' : e < E.g.len op.out := he
      omega
    · have hcell := h.cell op.out (hg.evalOrder.settled hop (hg.inplace op hmem hip)) e he
      rwa [hI.valueSlot_of_mem hop (by simp)] at hcell
  rw [forwardOp_share hcached, hplain]
  rcases @forwardOp_mapIns_pair U V S W E.K E.g.bind E.graph.bind op (E.before n).resolve σ τ hnp
    (hg.inBounds op hmem) (Graph.bind_home hg.noPrimal)
    (fun s hs => by
      rw [CseEnv.graph_home hg.evalOrder hg.noPrimal, CseScan.source, (hlast s hs).2]
      rfl)
    (fun s hs => CseEnv.len_resolve hg hop hs) (fun s hs => CseEnv.graph_len (hlast s hs).1)
    (fun s hs => (h.read_eq hg hop hs).2) hold h.world with
    ⟨e, hσ, hτ⟩ | ⟨σ', o, τ', o', hσ, hτ, hp⟩
  · refine .inl ⟨e, hσ, ?_⟩
    rw [hτ]
    rfl
  · refine .inr ⟨σ', o, _, o', hσ, ?_, ⟨hp.inputs, hp.scratch⟩,
      h.next_kept hg hop hv hσ (forwardOp_shared (by exact hnp) hτ) hp⟩
    rw [hτ]
    rfl

/-- The op that stays in the place of one that shares a survivor's primal. -/
def sharedOp (E : CseEnv U V S W) (n : ℕ) (op : Op U) (v : Survivor) : Op U :=
  { op.mapIns (E.before n).resolve with primalSource := some v.out }

/-- What the kernel of a surviving op would read is what the op reads. -/
lemma shown_eq (h : CseRelated E n σ τ) (hg : SelfContained E.g) (hop : E.g.ops[n]? = some op) :
    (op.mapIns (E.before n).resolve).shown E.graph.bind τ.mem = op.shown E.g.bind σ.mem :=
  Op.shown_mapIns (hg.inBounds op (List.mem_of_getElem? hop)) (Graph.bind_home hg.noPrimal)
    (fun _ hs => CseEnv.len_resolve hg hop hs) fun _ hs => (h.read_eq hg hop hs).2

/-- An op that shares a survivor's primal runs in the source only. -/
lemma step_shared (h : CseRelated E n σ τ) (hg : SelfContained E.g) (hop : E.g.ops[n]? = some op)
    {v : Survivor} (hv : (E.before n).survivor E op = some v)
    (hsh : (E.before n).shares E op = true) :
    ∃ σ' o o', forwardOp E.K E.g.bind op σ = .ok (σ', o) ∧
      forwardOp E.K E.graph.bind (sharedOp E n op v) τ = .ok (τ, o') ∧
      (o'.inputs = o.inputs ∧ o'.scratch = o.scratch) ∧ CseRelated E (n + 1) σ' τ := by
  obtain ⟨buf', scratch, hσ, hbuf, hshared⟩ := h.survivor_step hg hop hv
  have hsrc := hshared (CseEnv.scan_of_shared hg.evalOrder hop hv hsh).2.2
  have hne := CseEnv.survivor_out_ne hg.evalOrder hop hv
  have hcached : (sharedOp E n op v).cached = true := by simp [sharedOp, Op.cached, hne]
  refine ⟨_, _, ⟨(sharedOp E n op v).shown E.graph.bind τ.mem, scratch⟩, hσ, ?_,
    ⟨h.shown_eq hg hop, rfl⟩, h.next_survivor hg hop hv rfl (fun s hs => Function.update_of_ne hs _ _)
      fun e he => ?_⟩
  · have hname : (sharedOp E n op v).primalSource.getD (sharedOp E n op v).out = v.out := rfl
    rw [forwardOp, if_pos hcached, hname, hsrc]
  · change Function.update σ.mem op.out buf' op.out e = τ.mem v.out e
    rw [Function.update_self]
    exact hbuf e he

/-- A removed op. -/
lemma step_removed (h : CseRelated E n σ τ) (hg : SelfContained E.g) (hop : E.g.ops[n]? = some op)
    {v : Survivor} (hv : (E.before n).survivor E op = some v) :
    ∃ σ' o, forwardOp E.K E.g.bind op σ = .ok (σ', o) ∧ CseRelated E (n + 1) σ' τ := by
  obtain ⟨buf', scratch, hσ, hbuf, -⟩ := h.survivor_step hg hop hv
  refine ⟨_, _, hσ, h.next_survivor hg hop hv rfl (fun s hs => Function.update_of_ne hs _ _)
    fun e he => ?_⟩
  change Function.update σ.mem op.out buf' op.out e = τ.mem v.out e
  rw [Function.update_self]
  exact hbuf e he

/-- The sweeps start related. -/
lemma init (E : CseEnv U V S W) (m : Arena V) (w : W) :
    CseRelated E 0 ⟨m, w, fun _ => none⟩ ⟨m, w, fun _ => none⟩ :=
  ⟨rfl, fun _ _ _ _ => rfl, fun _ _ h => absurd h (by simp [CseEnv.before, CseEnv.scan, CseEnv.init])⟩

/-- The two sweeps over the first `N` ops. -/
lemma run (hg : SelfContained E.g) {N : ℕ} (hN : N ≤ E.g.ops.length) (m : Arena V) (w : W) :
    Rewriter.Simulated (fun σ τ => CseRelated E N σ τ)
      (fun o o' => o'.inputs = o.inputs ∧ o'.scratch = o.scratch)
      (E.rewriter.mask E.init (E.g.ops.take N))
      ((forwardMachine E.K E.g.bind).run (E.g.ops.take N) ⟨m, w, fun _ => none⟩)
      ((forwardMachine E.K E.graph.bind).run (E.rewriter.run E.init (E.g.ops.take N))
        ⟨m, w, fun _ => none⟩) := by
  have hdrop : ∀ {n : ℕ} {op : Op U} {rest : List (Op U)},
      (E.g.ops.take N).drop n = op :: rest → n < N ∧ E.g.ops[n]? = some op := by
    intro n op rest hrest
    have hget := (drop_succ_eq hrest).1
    have hn : n < N := by
      have := (List.getElem?_eq_some_iff.1 hget).1
      rw [List.length_take] at this
      omega
    rw [List.getElem?_take_of_lt hn] at hget
    exact ⟨hn, hget⟩
  refine Rewriter.run_simulates E.rewriter
    (R := fun p rest σ τ => ∃ n ≤ N, (E.g.ops.take N).drop n = rest ∧ p = E.before n ∧
      CseRelated E n σ τ) ?_ ?_ ?_ ⟨0, Nat.zero_le _, rfl, rfl, init E m w⟩
  · rintro p σ τ ⟨n, hn, hrest, -, h⟩
    have hlen := List.drop_eq_nil_iff.1 hrest
    rw [List.length_take, Nat.min_eq_left hN] at hlen
    obtain rfl : n = N := by omega
    exact h
  · rintro p op k rest σ τ hk ⟨n, hn, hrest, rfl, h⟩
    obtain ⟨hlt, hop⟩ := hdrop hrest
    have hnext : ∀ {σ' τ' : SweepState V S W}, CseRelated E (n + 1) σ' τ' →
        ∃ n' ≤ N, (E.g.ops.take N).drop n' = rest ∧
          E.rewriter.next (E.before n) op = E.before n' ∧ CseRelated E n' σ' τ' := fun h' =>
      ⟨n + 1, hlt, (drop_succ_eq hrest).2, (CseEnv.before_succ hop).symm, h'⟩
    have hk' : (E.before n).emit E (E.scan E.g.ops).sources op = some k := hk
    cases hv : (E.before n).survivor E op with
    | none =>
      rw [CseScan.emit_kept hv] at hk'
      obtain rfl := Option.some.inj hk'
      rcases h.step_kept hg hop hv with herr | ⟨σ', o, τ', o', hσ, hτ, hQ, h'⟩
      · exact .inl herr
      · exact .inr ⟨σ', o, τ', o', hσ, hτ, hQ, hnext h'⟩
    | some v =>
      cases hsh : (E.before n).shares E op with
      | false =>
        rw [CseScan.emit_removed hv hsh] at hk'
        cases hk'
      | true =>
        rw [CseScan.emit_shared hv hsh] at hk'
        obtain rfl := Option.some.inj hk'
        obtain ⟨σ', o, o', hσ, hτ, hQ, h'⟩ := h.step_shared hg hop hv hsh
        exact .inr ⟨σ', o, τ, o', hσ, hτ, hQ, hnext h'⟩
  · rintro p op rest σ τ hk ⟨n, hn, hrest, rfl, h⟩
    obtain ⟨hlt, hop⟩ := hdrop hrest
    have hk' : (E.before n).emit E (E.scan E.g.ops).sources op = none := hk
    cases hv : (E.before n).survivor E op with
    | none => simp [CseScan.emit_kept hv] at hk'
    | some v =>
      obtain ⟨σ', o, hσ, h'⟩ := h.step_removed hg hop hv
      exact ⟨σ', o, hσ, n + 1, hlt, (drop_succ_eq hrest).2, (CseEnv.before_succ hop).symm, h'⟩

end CseRelated

end Stanli
