import Mathlib.Data.List.Zip
import Stanli.Graph.Preserve

/-!
# Comparing two gradient evaluations

What a graph rewrite must preserve of one gradient evaluation, and how the adjoints that two ops
accumulate compare when one of them names its slots differently.
-/

namespace Stanli

variable {U V S W : Type*} [AddCommMonoid V]

/-- `g'` evaluates like `g`, gradient included: from the arenas `m` and `m'` the forward sweeps fail
alike, and if they do not, they leave the effects in the same state and every root with the same
value, and the reverse sweeps from any seed give every parameter the same adjoint. -/
structure Graph.GradientPreserved (K : Kernels U V S W) (g g' : Graph U) (roots : List ℕ)
    (m m' : Arena V) (w : W) : Prop where
  error_eq : (g'.forward K m' w).error = (g.forward K m w).error
  world_eq : (g.forward K m w).error = none →
    (g'.forward K m' w).state.world = (g.forward K m w).state.world
  root_eq : (g.forward K m w).error = none → ∀ r, g.isRoot roots r = true →
    g'.bind.read (g'.forward K m' w).state.mem r = g.bind.read (g.forward K m w).state.mem r
  adjoint_eq : (g.forward K m w).error = none → ∀ (seed : V) (s : ℕ), g.isParam s = true →
    ∀ e < g.len s, g'.reverse K (g'.forward K m' w) seed s e =
      g.reverse K (g.forward K m w) seed s e

/-! ## Accumulating adjoints -/

section Accumulate

variable {b b' : Binding} {ins : List ℕ} {inc inc' : ℕ → ℕ → V} {adj adj' : Arena V} {s s' e : ℕ}

/-- What one cell receives. -/
lemma accumulate_apply : accumulate b ins inc adj s e =
    ins.zipIdx.foldl (fun x p => if b.active p.1 = true ∧ p.1 = s then x + inc p.2 e else x)
      (adj s e) := by
  unfold accumulate
  generalize ins.zipIdx = l
  induction l generalizing adj with
  | nil => rfl
  | cons p l ih =>
    rw [List.foldl_cons, List.foldl_cons, ih]
    congr 1
    by_cases ha : b.active p.1 = true
    · by_cases hp : p.1 = s
      · subst hp
        simp [ha]
      · simp [ha, hp, Function.update_of_ne (Ne.symm hp)]
    · simp [ha]

/-- Renaming the slots of an op apart renames where its adjoints go. -/
lemma accumulate_map {f : ℕ → ℕ} (hf : ∀ t ∈ ins, f t = s' ↔ t = s)
    (hactive : s ∈ ins → b'.active s' = b.active s)
    (hinc : ∀ j, ins[j]? = some s → inc' j e = inc j e) (hadj : adj' s' e = adj s e) :
    accumulate b' (ins.map f) inc' adj' s' e = accumulate b ins inc adj s e := by
  rw [accumulate_apply, accumulate_apply, List.zipIdx_map, List.foldl_map, hadj]
  refine List.foldl_ext _ _ _ fun x p hp => ?_
  obtain ⟨t, j⟩ := p
  have ht : ins[j]? = some t := List.mem_zipIdx_iff_getElem?.1 hp
  have hmem : t ∈ ins := List.mem_of_getElem? ht
  simp only [Prod.map_apply, id_eq]
  by_cases hts : t = s
  · subst hts
    rw [(hf t hmem).2 rfl, hactive hmem, hinc j ht]
    simp only [and_true]
  · rw [if_neg fun h => hts ((hf t hmem).1 h.2), if_neg fun h => hts h.2]

/-- A slot that is no input keeps its adjoint. -/
lemma accumulate_of_notMem (h : s ∉ ins) : accumulate b ins inc adj s e = adj s e := by
  rw [accumulate_apply]
  have hne : ∀ p ∈ ins.zipIdx, p.1 ≠ s := fun p hp hps =>
    h (hps ▸ List.mem_of_getElem? (List.mem_zipIdx_iff_getElem?.1 hp))
  generalize ins.zipIdx = l at hne
  induction l with
  | nil => rfl
  | cons p l ih =>
    rw [List.foldl_cons, if_neg fun hp => hne p (by simp) hp.2]
    exact ih fun q hq => hne q (by simp [hq])

/-- A slot without an adjoint receives nothing. -/
lemma accumulate_of_inactive (h : b.active s = false) : accumulate b ins inc adj s e = adj s e := by
  rw [accumulate_apply]
  generalize ins.zipIdx = l
  induction l with
  | nil => rfl
  | cons p l ih =>
    rw [List.foldl_cons, if_neg fun hp => by simp [hp.2, h] at hp]
    exact ih

/-- What the base and the right-hand side of a store receive. -/
lemma accumulate_pair {x y : ℕ} : accumulate b [x, y] inc adj s e =
    (adj s e + if b.active x = true ∧ x = s then inc 0 e else 0) +
      if b.active y = true ∧ y = s then inc 1 e else 0 := by
  rw [accumulate_apply]
  simp only [List.zipIdx_cons, List.zipIdx_nil, List.foldl_cons, List.foldl_nil]
  split_ifs <;> simp

end Accumulate

section Routed

variable {op op' : Op U} {b b' : Binding} {u u' : ℕ → V} {j e : ℕ}

/-- Two element reads route the same adjoint. -/
lemma Op.routedBack_index (hi : op.opcode = .index) (hoc : op'.opcode = op.opcode)
    (hidata : op'.idata = op.idata) (hu : u' 0 = u 0) :
    op'.routedBack b' u' j e = op.routedBack b u j e := by
  have himm : op'.imm 0 = op.imm 0 := by simp [Op.imm, hidata]
  unfold Op.routedBack
  simp only [hoc, himm, hi, if_true, hu]

/-- Two stores route the same adjoints, as far as the adjoints they look at agree. -/
lemma Op.routedBack_store (hi : op.opcode ≠ .index) (hoc : op'.opcode = op.opcode)
    (hcomb : op'.comb (b'.len (op'.input 1)) = op.comb (b.len (op.input 1)))
    (hkeep : op.opcode.isCopyingStore = true → b'.len op'.out = b.len op.out ∧
      (e < b.len op.out → u' e = u e))
    (hroute : e < (op.comb (b.len (op.input 1))).2.2 →
      u' ((op.comb (b.len (op.input 1))).1 + e * (op.comb (b.len (op.input 1))).2.1) =
        u ((op.comb (b.len (op.input 1))).1 + e * (op.comb (b.len (op.input 1))).2.1)) :
    op'.routedBack b' u' j e = op.routedBack b u j e := by
  unfold Op.routedBack
  simp only [hcomb, hoc, hi, if_false]
  by_cases hj : j = 0
  · simp only [hj, if_true]
    by_cases hcp : op.opcode.isCopyingStore = true
    · obtain ⟨hlen, hu⟩ := hkeep hcp
      rw [hlen]
      by_cases hk : e < b.len op.out
      · rw [hu hk]
      · simp [hk]
    · simp [hcp]
  · simp only [hj, if_false]
    by_cases hk : e < (op.comb (b.len (op.input 1))).2.2
    · rw [hroute hk]
    · simp [hk]

end Routed

/-! ## One step back -/

section Step

variable {K : Kernels U V S W} {b : Binding} {final : Arena V} {op : Op U}
  {entry : LogEntry V S} {adj : Arena V}

lemma backwardOp_inplace (h : op.opcode.isInplaceStore = true) (s e : ℕ) :
    backwardOp K b final op entry adj s e =
      if s = op.out ∧ inComb (op.comb (b.len (op.input 1))) e = true then 0
      else accumulate b op.ins (op.routedBack b (adj op.out)) adj s e := by
  simp only [backwardOp, h, if_true]
  by_cases hs : s = op.out
  · subst hs
    simp
  · simp [hs]

lemma backwardOp_routed (h : op.opcode = .index ∨ op.opcode.isCopyingStore = true) :
    backwardOp K b final op entry adj =
      accumulate b op.ins (op.routedBack b (adj op.out)) adj := by
  have hip : op.opcode.isInplaceStore = false := by
    rcases h with h | h
    · rw [h]
      rfl
    · exact Opcode.isInplaceStore_eq_false_of_isCopyingStore h
  simp [backwardOp, hip, h]

lemma backwardOp_kernel (h : op.opcode.isRouted = false) :
    backwardOp K b final op entry adj =
      accumulate b op.ins
        (K.backward op.call entry.scratch (op.ins.map (b.read final)) (b.read final op.out)
          ((op.out2.map (b.read final)).getD []) (op.ins.map b.active)
          ((List.range (b.len op.out)).map (adj op.out))
          ((op.out2.map fun o => adj o 0).getD 0))
        adj := by
  simp only [Opcode.isRouted, Bool.or_eq_false_iff, decide_eq_false_iff_not] at h
  simp [backwardOp, h.1.1, h.1.2, h.2]

/-- A pullback only changes the adjoints of its inputs, and an in-place store those of its output. -/
lemma backwardOp_of_notMem {s : ℕ} (hs : s ∉ op.ins)
    (hip : op.opcode.isInplaceStore = true → s ≠ op.out) (e : ℕ) :
    backwardOp K b final op entry adj s e = adj s e := by
  by_cases hi : op.opcode.isInplaceStore = true
  · rw [backwardOp_inplace hi, if_neg fun h => hip hi h.1, accumulate_of_notMem hs]
  by_cases hr : op.opcode = .index ∨ op.opcode.isCopyingStore = true
  · rw [backwardOp_routed hr, accumulate_of_notMem hs]
  · rw [backwardOp_kernel (by simp_all [Opcode.isRouted]), accumulate_of_notMem hs]

/-- The pullback of an op whose inputs go by other names: a slot that keeps its name gets the same,
when the values, the scratch and the adjoints of the outputs are the same. -/
lemma backwardOp_map {b' : Binding} {final' : Arena V} {k : Op U} {entry' : LogEntry V S}
    {adj' : Arena V} {f : ℕ → ℕ} {s e : ℕ} (hcall : k.call = op.call) (hins : k.ins = op.ins.map f)
    (hout : k.out = op.out) (hout2 : k.out2 = op.out2) (hsafe : op.InBounds b.len)
    (hlen : ∀ t ∈ op.ins, b'.len (f t) = b.len t) (hlenOut : b'.len op.out = b.len op.out)
    (hread : ∀ t ∈ op.ins, b'.read final' (f t) = b.read final t)
    (hreadOut : ∀ t ∈ op.outs, b'.read final' t = b.read final t)
    (hact : ∀ t ∈ op.ins, b'.active (f t) = b.active t) (hscratch : entry'.scratch = entry.scratch)
    (hadj : ∀ t ∈ op.outs, adj' t = adj t) (hf : ∀ t ∈ op.ins, f t = s ↔ t = s)
    (hs : adj' s e = adj s e) :
    backwardOp K b' final' k entry' adj' s e = backwardOp K b final op entry adj s e := by
  have hoc : k.opcode = op.opcode := congrArg KernelCall.opcode hcall
  have hidata : k.idata = op.idata := congrArg KernelCall.idata hcall
  have hadjOut : adj' op.out = adj op.out := hadj op.out (by simp)
  have hacts : s ∈ op.ins → b'.active s = b.active s := fun hmem => by
    rw [← hact s hmem, (hf s hmem).2 rfl]
  have hcomb : op.opcode.isStore = true →
      k.comb (b'.len (k.input 1)) = op.comb (b.len (op.input 1)) := by
    intro hst
    obtain ⟨hl, -⟩ := hsafe.rhs hst
    have hin : k.input 1 = f (op.input 1) := by
      rw [Op.input, hins]
      exact (Op.mapIns_input (f := f) hl)
    rw [hin, hlen _ (Op.input_mem hl)]
    simp only [Op.comb, Op.imm, hoc, hidata]
  have hroute : op.opcode.isStore = true → ∀ j, k.routedBack b' (adj op.out) j e =
      op.routedBack b (adj op.out) j e := fun hst j =>
    Op.routedBack_store (Opcode.ne_index_of_isStore hst) hoc (hcomb hst)
      (fun _ => ⟨by rw [hout, hlenOut], fun _ => rfl⟩) fun _ => rfl
  by_cases hip : op.opcode.isInplaceStore = true
  · have hst := Opcode.isStore_of_isInplaceStore hip
    rw [backwardOp_inplace (hoc ▸ hip), backwardOp_inplace hip, hcomb hst, hout, hins, hadjOut,
      accumulate_map hf hacts (fun j _ => hroute hst j) hs]
  by_cases hr : op.opcode = .index ∨ op.opcode.isCopyingStore = true
  · rw [backwardOp_routed (by rwa [hoc]), backwardOp_routed hr, hout, hins, hadjOut]
    refine accumulate_map hf hacts (fun j _ => ?_) hs
    rcases hr with hi | hcp
    · exact Op.routedBack_index hi hoc hidata rfl
    · exact hroute (by simp [Opcode.isStore, hcp]) j
  · have hrouted : op.opcode.isRouted = false := by simp_all [Opcode.isRouted]
    have hinsRead : k.ins.map (b'.read final') = op.ins.map (b.read final) := by
      rw [hins, List.map_map]
      exact List.map_congr_left hread
    have hinsAct : k.ins.map b'.active = op.ins.map b.active := by
      rw [hins, List.map_map]
      exact List.map_congr_left hact
    have hout2Read : k.out2.map (b'.read final') = op.out2.map (b.read final) := by
      rw [hout2]
      cases h2 : op.out2 with
      | none => rfl
      | some t => rw [Option.map_some, Option.map_some, hreadOut t (by simp [h2])]
    have hout2Adj : (k.out2.map fun t => adj' t 0) = op.out2.map fun t => adj t 0 := by
      rw [hout2]
      cases h2 : op.out2 with
      | none => rfl
      | some t => rw [Option.map_some, Option.map_some, hadj t (by simp [h2])]
    rw [backwardOp_kernel (hoc ▸ hrouted), backwardOp_kernel hrouted, hinsRead, hinsAct, hout2Read,
      hout2Adj, hout, hlenOut, hadjOut, hscratch, hcall, hreadOut op.out (by simp), hins]
    exact accumulate_map hf hacts (fun _ _ => rfl) hs

/-- The pullback of the same op, its inputs under other names: what a slot gets, when the adjoints of
the output agree on its cells and the kernel adds the same. -/
lemma backwardOp_mapIns_pair {b' : Binding} {final' : Arena V} {entry' : LogEntry V S}
    {adj' : Arena V} {f : ℕ → ℕ} {s s' e : ℕ} (hsafe : op.InBounds b.len)
    (hlen : ∀ t ∈ op.ins, b'.len (f t) = b.len t) (hlenOut : b'.len op.out = b.len op.out)
    (hcells : ∀ i, op.opcode.isStore = true → inComb (op.comb (b.len (op.input 1))) i = true →
      i < b.len op.out)
    (hone : op.opcode = .index → 0 < b.len op.out)
    (hadj : ∀ c < b.len op.out, adj' op.out c = adj op.out c) (hf : ∀ t ∈ op.ins, f t = s' ↔ t = s)
    (hout : op.opcode.isInplaceStore = true → (s' = op.out ↔ s = op.out))
    (hact : s ∈ op.ins → b'.active s' = b.active s)
    (hback : op.opcode.isRouted = false → s ∈ op.ins → b.active s = true →
      ∀ j, op.ins[j]? = some s →
      K.backward op.call entry'.scratch ((op.ins.map f).map (b'.read final'))
        (b'.read final' op.out) ((op.out2.map (b'.read final')).getD [])
        ((op.ins.map f).map b'.active) ((List.range (b'.len op.out)).map (adj' op.out))
        ((op.out2.map fun o => adj' o 0).getD 0) j e =
      K.backward op.call entry.scratch (op.ins.map (b.read final)) (b.read final op.out)
        ((op.out2.map (b.read final)).getD []) (op.ins.map b.active)
        ((List.range (b.len op.out)).map (adj op.out)) ((op.out2.map fun o => adj o 0).getD 0) j e)
    (hs : adj' s' e = adj s e) :
    backwardOp K b' final' (op.mapIns f) entry' adj' s' e =
      backwardOp K b final op entry adj s e := by
  have hcomb : op.opcode.isStore = true →
      (op.mapIns f).comb (b'.len ((op.mapIns f).input 1)) = op.comb (b.len (op.input 1)) := by
    intro hst
    obtain ⟨hl, -⟩ := hsafe.rhs hst
    rw [Op.mapIns_input hl, hlen _ (Op.input_mem hl), Op.mapIns_comb]
  have hroute : op.opcode.isStore = true → ∀ j, (op.mapIns f).routedBack b' (adj' op.out) j e =
      op.routedBack b (adj op.out) j e := fun hst j =>
    Op.routedBack_store (Opcode.ne_index_of_isStore hst) rfl (hcomb hst)
      (fun _ => ⟨hlenOut, fun he => hadj e he⟩)
      fun he => hadj _ (hcells _ hst (inComb_iff.2 ⟨e, he, rfl⟩))
  have hmap : ∀ inc inc' : ℕ → ℕ → V,
      (s ∈ op.ins → b.active s = true → ∀ j, op.ins[j]? = some s → inc' j e = inc j e) →
      accumulate b' (op.ins.map f) inc' adj' s' e = accumulate b op.ins inc adj s e := by
    intro inc inc' hinc
    by_cases hmem : s ∈ op.ins
    · by_cases ha : b.active s = true
      · exact accumulate_map hf hact (hinc hmem ha) hs
      · rw [Bool.not_eq_true] at ha
        rw [accumulate_of_inactive ha, accumulate_of_inactive ((hact hmem).trans ha), hs]
    · have hmem' : s' ∉ op.ins.map f := fun h => by
        obtain ⟨t, ht, hts⟩ := List.mem_map.1 h
        exact hmem ((hf t ht).1 hts ▸ ht)
      rw [accumulate_of_notMem hmem, accumulate_of_notMem hmem', hs]
  by_cases hip : op.opcode.isInplaceStore = true
  · have hst := Opcode.isStore_of_isInplaceStore hip
    rw [backwardOp_inplace hip, backwardOp_inplace (by exact hip), hcomb hst]
    simp only [Op.mapIns_out, hout hip]
    rw [Op.mapIns_ins, hmap _ _ fun _ _ j _ => hroute hst j]
  by_cases hr : op.opcode = .index ∨ op.opcode.isCopyingStore = true
  · rw [backwardOp_routed hr, backwardOp_routed (by exact hr)]
    refine hmap _ _ fun _ _ j _ => ?_
    rcases hr with hi | hcp
    · exact Op.routedBack_index hi rfl rfl (hadj 0 (hone hi))
    · exact hroute (by simp [Opcode.isStore, hcp]) j
  · have hrouted : op.opcode.isRouted = false := by
      rw [not_or, Bool.not_eq_true] at hr
      rw [Bool.not_eq_true] at hip
      simp [Opcode.isRouted, hr.1, hr.2, hip]
    rw [backwardOp_kernel hrouted, backwardOp_kernel (by exact hrouted)]
    exact hmap _ _ (hback hrouted)

end Step

/-- The reverse sweep reads the values and the log of the forward one. -/
lemma Graph.reverse_congr {K : Kernels U V S W} {g : Graph U}
    {r r' : Outcome (SweepState V S W) (LogEntry V S) String} (hlog : r'.log = r.log)
    (hread : ∀ s, g.bind.read r'.state.mem s = g.bind.read r.state.mem s) (seed : V) :
    g.reverse K r' seed = g.reverse K r seed := by
  have hback : backwardOp K g.bind r'.state.mem = backwardOp K g.bind r.state.mem := by
    funext op entry adj
    unfold backwardOp
    rw [funext hread]
  unfold Graph.reverse
  rw [hback, hlog]

end Stanli
