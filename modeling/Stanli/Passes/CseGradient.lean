import Stanli.Passes.CseSound

/-!
# Value numbering preserves the gradient

Going back through the ops, the adjoints of the slots that a parameter has reached agree.  Without
merging active ops, none of these slots is renamed; the pullbacks of the ops that no parameter
reaches, removed or not, stay off them.  `cse_preserves` collects what the pass preserves.
-/

namespace Stanli

variable {U V S W : Type*}

namespace CseEnv

variable {E : CseEnv U V S W} {op : Op U} {n m s : ℕ}

/-- A slot that a parameter has reached stays reached. -/
lemma active_mono (hnm : n ≤ m) (hm : m ≤ E.g.ops.length) (hs : (E.before n).active s = true) :
    (E.before m).active s = true := by
  induction m, hnm using Nat.le_induction with
  | base => exact hs
  | succ m hnm ih =>
    rw [before_succ (List.getElem?_eq_getElem (l := E.g.ops) hm)]
    exact CseScan.active_le_step (ih (by omega))

section Inactive

variable (horder : EvalOrder E.g.ops) (hma : E.mergeActive = false)

include horder hma

/-- A slot that a parameter has reached is not renamed. -/
lemma rename_of_active (hn : n ≤ E.g.ops.length) (hs : (E.before n).active s = true) :
    (E.before n).rename s = none := by
  rw [Option.eq_none_iff_forall_ne_some]
  intro y hy
  have hI := CseScan.invariant_before horder hn
  rw [(hI.inactive hma s y hy).1] at hs
  cases hs

/-- Only slots that a parameter has reached are resolved to one. -/
lemma resolve_eq_iff (hn : n ≤ E.g.ops.length) (hs : (E.before n).active s = true) (t : ℕ) :
    (E.before n).resolve t = s ↔ t = s := by
  constructor
  · intro ht
    unfold CseScan.resolve at ht
    cases hr : (E.before n).rename t with
    | none => rwa [hr] at ht
    | some y =>
      rw [hr, Option.getD_some] at ht
      have hI := CseScan.invariant_before horder hn
      rw [ht] at hr
      rw [(hI.inactive hma t s hr).2] at hs
      cases hs
  · rintro rfl
    unfold CseScan.resolve
    rw [rename_of_active horder hma hn hs, Option.getD_none]

/-- An op with an input that a parameter has reached. -/
lemma anyActive_of_mem (hn : n ≤ E.g.ops.length) (hs : (E.before n).active s = true)
    (hmem : s ∈ op.ins) : (E.before n).anyActive op = true := by
  refine List.any_eq_true.2 ⟨s, ?_, hs⟩
  exact List.mem_map.2 ⟨s, hmem, (resolve_eq_iff horder hma hn hs s).2 rfl⟩

/-- The ops that a parameter reaches. -/
lemma anyActive_of_reaches (hreach : ParamReaches E.g n) :
    ∀ {op : Op U}, E.g.ops[n]? = some op → (E.before n).anyActive op = true := by
  induction hreach with
  | @param i s op hop hs hparam =>
    intro op' hop'
    obtain rfl := Option.some.inj (hop.symm.trans hop')
    have hi := (List.getElem?_eq_some_iff.1 hop).1
    exact anyActive_of_mem horder hma (Nat.le_of_lt hi)
      (active_mono (Nat.zero_le i) (Nat.le_of_lt hi) hparam) hs
  | @write i j s op o hop hs hji ho hso _ ih =>
    intro op' hop'
    obtain rfl := Option.some.inj (hop.symm.trans hop')
    have hi := (List.getElem?_eq_some_iff.1 hop).1
    have hj : (E.before (j + 1)).active s = true := by
      rw [before_succ ho, CseScan.step_active]
      simp [CseScan.nextActive, hso, ih ho]
    exact anyActive_of_mem horder hma (Nat.le_of_lt hi) (active_mono hji (Nat.le_of_lt hi) hj) hs

end Inactive

/-- An op that a parameter reaches survives. -/
lemma mask_of_anyActive (hma : E.mergeActive = false) (hop : E.g.ops[n]? = some op)
    (hact : (E.before n).anyActive op = true) :
    (E.rewriter.mask E.init E.g.ops)[n]? = some true := by
  rw [Rewriter.mask_getElem?, hop, final_take]
  have hsome : ((E.before n).emit E (E.scan E.g.ops).sources op).isSome = true := by
    cases hv : (E.before n).survivor E op with
    | none => rw [CseScan.emit_kept hv, Option.isSome_some]
    | some v =>
      have hsh : (E.before n).shares E op = true := by simp [CseScan.shares, hact, hma]
      rw [CseScan.emit_shared hv hsh, Option.isSome_some]
  exact congrArg some hsome

/-- A surviving op does not write a renamed slot. -/
lemma rename_of_emit (horder : EvalOrder E.g.ops) (hop : E.g.ops[n]? = some op) {k : Op U}
    (hk : (E.before n).emit E (E.scan E.g.ops).sources op = some k) (hs : s ∈ op.outs) :
    (E.scan E.g.ops).rename s = none := by
  cases hv : (E.before n).survivor E op with
  | none => exact (scan_of_kept horder hop hv hs).1
  | some v =>
    cases hsh : (E.before n).shares E op with
    | true =>
      obtain rfl := (CseScan.survivor_eq_some hv).1.outs.1 hs
      exact (scan_of_shared horder hop hv hsh).1
    | false =>
      rw [CseScan.emit_removed hv hsh] at hk
      cases hk

/-- What stands for an input has an adjoint when the input has one. -/
lemma active_resolve (hg : SelfContained E.g) (hop : E.g.ops[n]? = some op) (hs : s ∈ op.ins) :
    E.graph.bind.active ((E.before n).resolve s) = E.g.bind.active s := by
  have hn := (List.getElem?_eq_some_iff.1 hop).1
  have hI := CseScan.invariant_before hg.evalOrder (Nat.le_of_lt hn)
  have hsettled := hg.evalOrder.settled hop hs
  have hlast := (scan_stable (hI.settled_resolve hsettled) (Nat.le_of_lt hn)).1
  unfold CseScan.resolve at hlast ⊢
  cases hr : (E.before n).rename s with
  | none =>
    rw [hr, Option.getD_none] at hlast
    rw [Option.getD_none, graph_active (hlast.trans hr)]
  | some y =>
    -- both were written
    have hm := hI.merged s y (.inl hr)
    rw [hr, Option.getD_some] at hlast
    obtain ⟨d, -, j, -, hx, hy⟩ := hm.writers
    rw [Option.getD_some, graph_active (hlast.trans hm.root.1), hy.writes.active, hx.writes.active]

end CseEnv

/-! ## The reverse sweep -/

section Reverse

variable [AddCommMonoid V] {E : CseEnv U V S W} {op : Op U} {n s : ℕ} {σ τ : SweepState V S W}

namespace CseRelated

/-- What the values are in the end. -/
lemma final_read (h : CseRelated E E.g.ops.length σ τ) (hg : SelfContained E.g)
    (hlen : E.graph.bind.len ((E.scan E.g.ops).resolve s) = E.g.len s) :
    E.graph.bind.read τ.mem ((E.scan E.g.ops).resolve s) = E.g.bind.read σ.mem s := by
  have hcell := h.cell s (E.g.settled_length s)
  rw [CseEnv.before_length] at hcell
  refine Binding.read_eq_read hlen fun e he => ?_
  rw [CseEnv.graph_home hg.evalOrder hg.noPrimal, Graph.bind_home hg.noPrimal]
  exact hcell e (hlen ▸ he)

/-- What a surviving op would read in the end. -/
lemma final_read_ins (h : CseRelated E E.g.ops.length σ τ) (hg : SelfContained E.g)
    (hop : E.g.ops[n]? = some op) (hs : s ∈ op.ins) :
    E.graph.bind.read τ.mem ((E.before n).resolve s) = E.g.bind.read σ.mem s := by
  have hn := (List.getElem?_eq_some_iff.1 hop).1
  have hres : (E.scan E.g.ops).resolve s = (E.before n).resolve s := by
    unfold CseScan.resolve
    rw [(CseEnv.scan_stable (hg.evalOrder.settled hop hs) (Nat.le_of_lt hn)).1]
  have hlen := CseEnv.len_resolve hg hop hs
  rw [← hres] at hlen ⊢
  exact h.final_read hg hlen

/-- A slot that is not renamed. -/
lemma final_read_of_rename (h : CseRelated E E.g.ops.length σ τ) (hg : SelfContained E.g)
    (hs : (E.scan E.g.ops).rename s = none) :
    E.graph.bind.read τ.mem s = E.g.bind.read σ.mem s := by
  have hres : (E.scan E.g.ops).resolve s = s := by rw [CseScan.resolve, hs, Option.getD_none]
  have hread := @final_read U V S W _ E s σ τ h hg (by rw [hres]; exact CseEnv.graph_len hs)
  rwa [hres] at hread

/-- The reverse sweeps agree on what a parameter has reached. -/
lemma reverse (h : CseRelated E E.g.ops.length σ τ) (hg : SelfContained E.g)
    (hma : E.mergeActive = false) {os os' : List (LogEntry V S)}
    (hlen : os.length = E.g.ops.length)
    (hlog : List.Forall₂ (fun o o' => o'.inputs = o.inputs ∧ o'.scratch = o.scratch)
      (applyMask (E.rewriter.mask E.init E.g.ops) os) os') (a : Arena V) :
    ∀ s, E.g.isParam s = true →
      backRun (backwardOp E.K E.graph.bind τ.mem) (E.rewriter.run E.init E.g.ops) os' a s =
        backRun (backwardOp E.K E.g.bind σ.mem) E.g.ops os a s := by
  refine backRun_simulates E.rewriter
    (I := fun p rest => ∃ n, E.g.ops.drop n = rest ∧ p = E.before n)
    (R := fun p _ (a b : Arena V) => ∀ s, p.active s = true → b s = a s) ?_ ?_ ?_ ⟨0, rfl, rfl⟩ hlen hlog
    fun _ _ => rfl
  · rintro p op rest ⟨n, hrest, rfl⟩
    exact ⟨n + 1, (drop_succ_eq hrest).2, (CseEnv.before_succ (drop_succ_eq hrest).1).symm⟩
  · rintro p op k rest o o' a b ⟨n, hrest, rfl⟩ hk hQ hab s hs
    have hop := (drop_succ_eq hrest).1
    have hmem := List.mem_of_getElem? hop
    have hn := Nat.le_of_lt (List.getElem?_eq_some_iff.1 hop).1
    obtain ⟨hout, hout2, hcall, hins⟩ := CseScan.emit_outs hk
    have hnext : (E.rewriter.next (E.before n) op).active = (E.before n).nextActive op :=
      CseScan.step_active (E := E)
    rw [hnext] at hab
    have hs' : b s = a s := hab s (by simp [CseScan.nextActive, hs])
    funext e
    by_cases hact : (E.before n).anyActive op = true
    · refine backwardOp_map hcall hins hout hout2 (hg.inBounds op hmem)
        (fun t ht => CseEnv.len_resolve hg hop ht)
        (CseEnv.graph_len (CseEnv.rename_of_emit hg.evalOrder hop hk (by simp)))
        (fun t ht => h.final_read_ins hg hop ht)
        (fun t ht => h.final_read_of_rename hg (CseEnv.rename_of_emit hg.evalOrder hop hk ht))
        (fun t ht => CseEnv.active_resolve hg hop ht) hQ.2
        (fun t ht => hab t (by simp [CseScan.nextActive, ht, hact]))
        (fun t _ => CseEnv.resolve_eq_iff hg.evalOrder hma hn hs t) (congrFun hs' e)
    · -- a parameter reaches none of the inputs
      have hnot : s ∉ op.ins := fun h => hact (CseEnv.anyActive_of_mem hg.evalOrder hma hn hs h)
      have hnot' : s ∉ k.ins := by
        rw [hins]
        intro hmem'
        obtain ⟨t, ht, heq⟩ := List.mem_map.1 hmem'
        exact hnot ((CseEnv.resolve_eq_iff hg.evalOrder hma hn hs t).1 heq ▸ ht)
      have hne : op.opcode.isInplaceStore = true → s ≠ op.out := fun hip heq =>
        hnot (heq ▸ hg.inplace op hmem hip)
      have hoc : k.opcode = op.opcode := congrArg KernelCall.opcode hcall
      rw [backwardOp_of_notMem hnot hne, backwardOp_of_notMem hnot' (by rwa [hout, hoc]), hs']
  · rintro p op rest o a b ⟨n, hrest, rfl⟩ hk hab s hs
    have hop := (drop_succ_eq hrest).1
    have hmem := List.mem_of_getElem? hop
    have hn := Nat.le_of_lt (List.getElem?_eq_some_iff.1 hop).1
    have hnext : (E.rewriter.next (E.before n) op).active = (E.before n).nextActive op :=
      CseScan.step_active (E := E)
    rw [hnext] at hab
    have hact : (E.before n).anyActive op = false := by
      rw [Bool.eq_false_iff]
      intro hact
      have hm := CseEnv.mask_of_anyActive hma hop hact
      have hk' : (E.before n).emit E (E.scan E.g.ops).sources op = none := hk
      rw [Rewriter.mask_getElem?, hop, CseEnv.final_take] at hm
      have : (E.rewriter.emit (E.before n) op).isSome = true := by simpa using hm
      rw [show E.rewriter.emit (E.before n) op = none from hk'] at this
      cases this
    have hnot : s ∉ op.ins := fun h => by
      rw [CseEnv.anyActive_of_mem hg.evalOrder hma hn hs h] at hact
      cases hact
    funext e
    rw [backwardOp_of_notMem hnot fun hip heq => hnot (heq ▸ hg.inplace op hmem hip),
      hab s (by simp [CseScan.nextActive, hs])]

end CseRelated

end Reverse

/-! ## The shared primals -/

/-- The forward sweep over the first `n` ops. -/
def Graph.sweep (K : Kernels U V S W) (g : Graph U) (m : Arena V) (w : W) (n : ℕ) :
    Outcome (SweepState V S W) (LogEntry V S) String :=
  (forwardMachine K g.bind).run (g.ops.take n) ⟨m, w, fun _ => none⟩

/-- The cached op `op` at position `i` shares the primal of slot `s`: one op writes `s`, an earlier
one that names itself, and from `i` to the end of the sweep `s` holds what `op` would compute if it
ran its kernel there. -/
structure Graph.SharesPrimal (K : Kernels U V S W) (g : Graph U) (m : Arena V) (w : W) (i : ℕ)
    (op : Op U) (s : ℕ) : Prop where
  source : ∃ j < i, g.SoleWriter s j ∧ ∃ o, g.ops[j]? = some o ∧ o.out = s ∧ o.primalSource = some s
  len_eq : g.len op.out = g.len s
  value : ∀ n, i ≤ n → (g.sweep K m w n).error = none → ∃ st o,
    forwardOp K g.bind { op with primalSource := none } (g.sweep K m w i).state = .ok (st, o) ∧
      ∀ e < g.len s, (g.sweep K m w n).state.mem s e = st.mem (g.bind.home op.out) e

namespace Graph

variable {K : Kernels U V S W} {g : Graph U} {m : Arena V} {w : W} {i n s : ℕ}

/-- A longer sweep goes on where a shorter one has stopped. -/
lemma sweep_split (hin : i ≤ n) :
    g.ops.take n = g.ops.take i ++ (g.ops.take n).drop i := by
  conv_lhs => rw [← List.take_append_drop i (g.ops.take n)]
  rw [List.take_take, Nat.min_eq_left hin]

lemma sweep_error_of_le (hin : i ≤ n) (h : (g.sweep K m w n).error = none) :
    (g.sweep K m w i).error = none := by
  unfold sweep at h ⊢
  rw [sweep_split hin] at h
  exact Machine.error_eq_none_of_append h

/-- Between two positions a buffer keeps its contents when the ops there that run their kernels write
other slots. -/
lemma sweep_mem_of_le (hin : i ≤ n) (h : (g.sweep K m w n).error = none)
    (hhome : ∀ k ∈ g.ops, k.cached = false → ∀ t ∈ k.outs, g.bind.home t = t)
    (hs : ∀ j k, i ≤ j → g.ops[j]? = some k → s ∉ k.outs) :
    (g.sweep K m w n).state.mem s = (g.sweep K m w i).state.mem s := by
  have happ : ((forwardMachine K g.bind).run (g.ops.take i ++ (g.ops.take n).drop i)
      ⟨m, w, fun _ => none⟩).state = _ :=
    (Machine.run_append (sweep_error_of_le hin h)).1
  rw [← sweep_split hin] at happ
  rw [sweep, happ]
  refine Machine.run_invariant (P := fun (st : SweepState V S W) =>
    st.mem s = (g.sweep K m w i).state.mem s) rfl fun k hk st st' o hst hstep => ?_
  obtain ⟨j, hj⟩ := List.mem_iff_getElem?.1 hk
  rw [List.getElem?_drop] at hj
  have hj' : g.ops[i + j]? = some k := by
    have hlt := (List.getElem?_eq_some_iff.1 hj).1
    rw [List.length_take] at hlt
    rwa [List.getElem?_take_of_lt (by omega)] at hj
  cases hc : k.cached with
  | true =>
    -- a cached op leaves the state alone
    change forwardOp K g.bind k st = .ok (st', o) at hstep
    rw [forwardOp, if_pos hc] at hstep
    split at hstep
    · cases hstep
    · rw [← (Prod.mk.inj (Except.ok.inj hstep)).1, hst]
  | false =>
    rw [forwardOp_frame hc (hhome k (List.mem_of_getElem? hj') hc) hstep (hs _ k (by omega) hj'), hst]

end Graph

namespace CseEnv

variable {E : CseEnv U V S W} {op : Op U} {n s : ℕ}

/-- The survivor of a repeated op repeats no other. -/
lemma survivor_kept (horder : EvalOrder E.g.ops) (hop : E.g.ops[n]? = some op) {v : Survivor}
    (hv : (E.before n).survivor E op = some v) :
    ∃ o, E.g.ops[v.pos]? = some o ∧ o.out = v.out ∧ (E.before v.pos).survivor E o = none := by
  have hn := (List.getElem?_eq_some_iff.1 hop).1
  have hI := CseScan.invariant_before horder (Nat.le_of_lt hn)
  have he := hI.survivor_entry hv
  obtain ⟨o, ho, hm, hout, -⟩ := he.op
  obtain ⟨hr, hp⟩ := scan_stable (E := E) (he.soleWriter.settled he.lt) (Nat.le_of_lt hn)
  refine ⟨o, ho, hout, ?_⟩
  rw [Option.eq_none_iff_forall_ne_some]
  intro v' hv'
  cases hsh : (E.before v.pos).shares E o with
  | true =>
    have h := (scan_of_shared horder ho hv' hsh).2.1
    rw [hout, hp, he.root.2] at h
    cases h
  | false =>
    have h := scan_of_removed ho hv' hsh
    rw [hout, hr, he.root.1] at h
    cases h

/-- Only op `pos` of the survivor writes its slot in the rewritten graph, as its own source. -/
lemma survivor_source (horder : EvalOrder E.g.ops) (hop : E.g.ops[n]? = some op) {v : Survivor}
    (hv : (E.before n).survivor E op = some v) (hsrc : v.pos ∈ (E.scan E.g.ops).sources) :
    ∃ j < E.rewriter.rank E.init E.g.ops n, E.graph.SoleWriter v.out j ∧
      ∃ o, E.graph.ops[j]? = some o ∧ o.out = v.out ∧ o.primalSource = some v.out := by
  have he := (CseScan.invariant_before horder
    (Nat.le_of_lt (List.getElem?_eq_some_iff.1 hop).1)).survivor_entry hv
  obtain ⟨o, ho, hout, hnone⟩ := survivor_kept horder hop hv
  have hpos := (CseScan.invariant_before horder
    (Nat.le_of_lt (List.getElem?_eq_some_iff.1 ho).1)).pos
  have hemit := @CseScan.emit_kept U V S W E (E.before v.pos) o (E.scan E.g.ops).sources hnone
  have hget := getElem?_graph_ops.2 ⟨v.pos, o, ho, hemit, rfl⟩
  refine ⟨_, E.rewriter.rank_lt he.lt ho (by rw [final_take]; exact hemit), ⟨⟨_, hget, ?_⟩, ?_⟩, _,
    hget, hout, ?_⟩
  · simp [hout]
  · rintro j ⟨k, hk, hmem⟩
    obtain ⟨n', op', hop', hemit', rfl⟩ := getElem?_graph_ops.1 hk
    obtain ⟨h1, h2, -⟩ := CseScan.emit_outs hemit'
    rw [he.soleWriter.unique n' ⟨op', hop', by simpa [h1, h2] using hmem⟩]
  · simp only [hpos, hsrc, if_true, hout]

/-- The ops of the rewritten graph that run their kernels write their own buffers. -/
lemma graph_home_of_not_cached (hg : SelfContained E.g) {k : Op U} (hk : k ∈ E.graph.ops)
    (hc : k.cached = false) {t : ℕ} (ht : t ∈ k.outs) : E.graph.bind.home t = t := by
  obtain ⟨n, op, hop, hemit⟩ := mem_graph_ops.1 hk
  obtain ⟨h1, h2, -⟩ := CseScan.emit_outs hemit
  have hnone : (E.before n).survivor E op = none := by
    cases hv : (E.before n).survivor E op with
    | none => rfl
    | some v =>
      cases hsh : (E.before n).shares E op with
      | false =>
        rw [CseScan.emit_removed hv hsh] at hemit
        cases hemit
      | true =>
        have hk' := hemit
        rw [CseScan.emit_shared hv hsh] at hk'
        obtain rfl := Option.some.inj hk'
        rw [(cached_iff hg.evalOrder hg.noPrimal hop hemit).2 ⟨v, hv, hsh, rfl⟩] at hc
        cases hc
  rw [graph_home hg.evalOrder hg.noPrimal, CseScan.source,
    (scan_of_kept hg.evalOrder hop hnone (by simpa [h1, h2] using ht)).2, Option.getD_none]

/-- The sweep of the rewritten graph up to the place of op `n`. -/
lemma sweep_rank (E : CseEnv U V S W) (m : Arena V) (w : W) (n : ℕ) :
    E.graph.sweep E.K m w (E.rewriter.rank E.init E.g.ops n) =
      (forwardMachine E.K E.graph.bind).run (E.rewriter.run E.init (E.g.ops.take n))
        ⟨m, w, fun _ => none⟩ := by
  rw [Graph.sweep, E.rewriter.run_take]
  rfl

/-- What a primal-sharing op would compute, if it ran its kernel in the rewritten graph. -/
lemma shared_value [Zero V] (hg : SelfContained E.g) (hop : E.g.ops[n]? = some op) {v : Survivor}
    (hv : (E.before n).survivor E op = some v) (hsh : (E.before n).shares E op = true)
    {σ τ : SweepState V S W} (h : CseRelated E n σ τ) :
    ∃ buf' o, forwardOp E.K E.graph.bind (op.mapIns (E.before n).resolve) τ =
        .ok ({ τ with mem := Function.update τ.mem v.out buf' }, o) ∧
      ∀ e < E.g.len op.out, buf' e = τ.mem v.out e := by
  have hmem := List.mem_of_getElem? hop
  obtain ⟨hm, -, -⟩ := CseScan.survivor_eq_some hv
  obtain ⟨hr, hp, -⟩ := scan_of_shared hg.evalOrder hop hv hsh
  obtain ⟨buf, scratch, hvalue, -, hbuf, -⟩ := h.survivor_value hg hop hv
  have hlen : E.graph.bind.len op.out = E.g.len op.out := graph_len hr
  have hreads : (op.mapIns (E.before n).resolve).ins.map (E.graph.bind.read τ.mem) =
      op.ins.map (E.g.bind.read σ.mem) := by
    rw [Op.mapIns_ins, List.map_map]
    refine List.map_congr_left fun t ht => ?_
    have hlent := len_resolve hg hop ht
    refine Binding.read_eq_read hlent fun e he => ?_
    rw [Graph.bind_home hg.noPrimal]
    exact (h.read_eq hg hop ht).2 e (hlent ▸ he)
  have hvalue' : (op.mapIns (E.before n).resolve).value E.K (E.graph.bind.len op.out)
      ((op.mapIns (E.before n).resolve).ins.map (E.graph.bind.read τ.mem)) =
        .ok (buf, scratch) := by
    rw [hreads, Op.value_congr E.K (Op.mapIns_call (E.before n).resolve op), hlen]
    exact hvalue
  have hip : op.opcode.isInplaceStore = false := isInplaceStore_eq_false hg hop hm
  rcases @forwardOp_value U V S W _ E.K E.graph.bind (op.mapIns (E.before n).resolve) τ
    (hg.noPrimal op hmem) hm.noEffect hm.out2 hip
    (fun hi => by rw [Op.mapIns_out, hlen]; exact hg.load_len op hmem hi)
    ((hg.inBounds op hmem).mapIns (fun t ht => len_resolve hg hop ht) hlen) with
    ⟨e, he, -⟩ | ⟨buf₁, scratch₁, buf', h1, h2, h3⟩
  · rw [Op.mapIns_out, hvalue'] at he
    cases he
  · rw [Op.mapIns_out, hvalue'] at h1
    obtain ⟨rfl, rfl⟩ := Prod.mk.inj (Except.ok.inj h1)
    rw [Op.mapIns_out, graph_home hg.evalOrder hg.noPrimal, CseScan.source, hp,
      Option.getD_some] at h2
    refine ⟨buf', _, h2, fun e he => (h3 e ?_).trans (hbuf e he).symm⟩
    rw [Op.mapIns_out, hlen]
    exact he

/-- An op that names another one's output shares its primal. -/
lemma sharesPrimal [Zero V] (hg : SelfContained E.g) {i : ℕ} {k : Op U} {s : ℕ}
    (hk : E.graph.ops[i]? = some k) (hs : k.primalSource = some s) (hne : s ≠ k.out)
    (m : Arena V) (w : W) : E.graph.SharesPrimal E.K m w i k s := by
  obtain ⟨n, op, hop, hemit, rfl⟩ := getElem?_graph_ops.1 hk
  have hn := (List.getElem?_eq_some_iff.1 hop).1
  have hcached : k.cached = true := by simp [Op.cached, hs, hne]
  obtain ⟨v, hv, hsh, hps⟩ := (cached_iff hg.evalOrder hg.noPrimal hop hemit).1 hcached
  obtain rfl : s = v.out := Option.some.inj (hs.symm.trans hps)
  rw [CseScan.emit_shared hv hsh] at hemit
  obtain rfl := Option.some.inj hemit
  have he := (CseScan.invariant_before hg.evalOrder (Nat.le_of_lt hn)).survivor_entry hv
  obtain ⟨hr, hp, hsrc⟩ := scan_of_shared hg.evalOrder hop hv hsh
  obtain ⟨j, hj, hsole, hsource⟩ := survivor_source hg.evalOrder hop hv hsrc
  have hvroot : (E.scan E.g.ops).rename v.out = none := by
    rw [(scan_stable (E := E) (he.soleWriter.settled he.lt) (Nat.le_of_lt hn)).1, he.root.1]
  have hlen : E.graph.len op.out = E.graph.len v.out := by
    rw [graph_len hr, graph_len hvroot]
    exact he.len.symm
  refine ⟨⟨j, hj, hsole, hsource⟩, hlen, fun n' hn' hok => ?_⟩
  have hsim := CseRelated.run hg (Nat.le_of_lt hn) m w
  rw [← sweep_rank] at hsim
  have hrel := hsim.final (hsim.error_eq ▸ Graph.sweep_error_of_le hn' hok)
  obtain ⟨buf', o, hstep, hbuf⟩ := shared_value hg hop hv hsh hrel
  have hplain : ({ { op.mapIns (E.before n).resolve with primalSource := some v.out } with
      primalSource := none } : Op U) = op.mapIns (E.before n).resolve := by
    unfold Op.mapIns
    rw [hg.noPrimal op (List.mem_of_getElem? hop)]
  have hhome : E.graph.bind.home op.out = v.out := by
    rw [graph_home hg.evalOrder hg.noPrimal, CseScan.source, hp, Option.getD_some]
  rw [hplain]
  refine ⟨_, o, hstep, fun e hel => ?_⟩
  have hkeep := Graph.sweep_mem_of_le (s := v.out) hn' hok
    (fun k hk hc t ht => graph_home_of_not_cached hg hk hc ht)
    fun j' k hj' hk => hsole.notMem hk (by omega)
  have hel' : e < E.g.len op.out := by
    rw [← graph_len hr, hlen]
    exact hel
  rw [hkeep, Op.mapIns_out, hhome, ← hbuf e hel']
  exact (congrFun (Function.update_self ..) e).symm

end CseEnv

/-! ## The result -/

/-- What `cse` preserves from the arena `m`; `mask` tells which ops survive.  The sweeps fail alike,
leave every root and every target term with the same value, and a surviving op reads the same inputs.
Without merging active ops, every op that a parameter reaches survives, with its outputs, and the
reverse sweeps give every parameter the same adjoint.  Roots and filled slots keep their lengths.  An op that names another slot as its primal
source shares that slot's primal. -/
structure CsePreserves [AddCommMonoid V] (K : Kernels U V S W) (g : Graph U) (fills : Fills V)
    (targetTerms roots : List ℕ) (mergeActive : Bool) (mask : List Bool) (m : Arena V) (w : W) :
    Prop where
  forward : Rewriter.Simulated
    (fun s s' => s'.world = s.world ∧
      (∀ r, g.isRoot roots r = true →
        (cse K g fills targetTerms roots mergeActive).graph.bind.read s'.mem r =
          g.bind.read s.mem r) ∧
      (cse K g fills targetTerms roots mergeActive).targetTerms.map
          ((cse K g fills targetTerms roots mergeActive).graph.bind.read s'.mem) =
        targetTerms.map (g.bind.read s.mem))
    (fun o o' => o'.inputs = o.inputs) mask (g.forward K m w)
    ((cse K g fills targetTerms roots mergeActive).graph.forward K m w)
  survivors : List.Forall₂ (fun op op' => op'.call = op.call ∧ op'.outs = op.outs)
    (applyMask mask g.ops) (cse K g fills targetTerms roots mergeActive).graph.ops
  reached : mergeActive = false → ∀ i, ParamReaches g i → mask[i]? = some true
  adjoint_eq : mergeActive = false → (g.forward K m w).error = none →
    ∀ (seed : V) (s : ℕ), g.isParam s = true →
      (cse K g fills targetTerms roots mergeActive).graph.reverse K
          ((cse K g fills targetTerms roots mergeActive).graph.forward K m w) seed s =
        g.reverse K (g.forward K m w) seed s
  keep_len : ∀ s, g.cseKeep fills roots s = true →
    (cse K g fills targetTerms roots mergeActive).graph.len s = g.len s
  primal : ∀ i op s, (cse K g fills targetTerms roots mergeActive).graph.ops[i]? = some op →
    op.primalSource = some s → s ≠ op.out →
      (cse K g fills targetTerms roots mergeActive).graph.SharesPrimal K m w i op s

section Result

variable {E : CseEnv U V S W}

/-- What is removed is counted. -/
lemma CseEnv.rename_of_opsRemoved {n : ℕ} (hn : n ≤ E.g.ops.length)
    (h : (E.before n).opsRemoved = 0) (s : ℕ) : (E.before n).rename s = none := by
  induction n with
  | zero => rfl
  | succ n ih =>
    have hop := List.getElem?_eq_getElem (l := E.g.ops) hn
    rw [before_succ hop] at h ⊢
    rcases CseScan.step_cases E (E.before n) E.g.ops[n] with
      ⟨v, -, -, hst⟩ | ⟨v, -, -, hst⟩ | ⟨-, hst⟩ <;> rw [hst] at h ⊢
    · exact ih (by omega) h
    · exact absurd h (Nat.succ_ne_zero _)
    · exact ih (by omega) h

/-- The slots that are kept are not renamed. -/
lemma CseEnv.rename_of_keep (horder : EvalOrder E.g.ops) {s : ℕ} (hs : E.keep s = true) :
    (E.scan E.g.ops).rename s = none := by
  rw [Option.eq_none_iff_forall_ne_some]
  intro y hy
  rw [((invariant_scan horder).merged s y (.inl hy)).keep] at hs
  cases hs

end Result

/-- `cse` preserves the model. -/
theorem cse_preserves [AddCommMonoid V] (K : Kernels U V S W) (g : Graph U) (hg : SelfContained g)
    (fills : Fills V) (targetTerms roots : List ℕ) (mergeActive : Bool) :
    ∃ mask, ∀ m w, CsePreserves K g fills targetTerms roots mergeActive mask m w := by
  set E : CseEnv U V S W := ⟨K, g, g.cseKeep fills roots, mergeActive⟩ with hE
  have hgE : SelfContained E.g := hg
  have hgraph : (cse K g fills targetTerms roots mergeActive).graph = E.graph := rfl
  have hterms : (cse K g fills targetTerms roots mergeActive).targetTerms =
      targetTerms.map (E.scan E.g.ops).resolve := by
    unfold cse
    dsimp only
    split_ifs with h0
    · have hid : (E.scan E.g.ops).resolve = id := by
        funext s
        have h := CseEnv.rename_of_opsRemoved (E := E) (Nat.le_refl _)
          (by rw [CseEnv.before_length]; exact h0) s
        rw [CseEnv.before_length] at h
        rw [CseScan.resolve, h]
        rfl
      rw [hid, List.map_id]
    · rfl
  have hlenTerm : ∀ s, E.graph.bind.len ((E.scan E.g.ops).resolve s) = E.g.len s := by
    intro s
    have hI := CseEnv.invariant_scan (E := E) hgE.evalOrder
    refine (CseEnv.graph_len ?_).trans (hI.len_valueSlot s).1
    unfold CseScan.resolve
    cases hr : (E.scan E.g.ops).rename s with
    | none => exact hr
    | some y => exact (hI.merged s y (.inl hr)).root.1
  refine ⟨E.rewriter.mask E.init g.ops, fun m w => ?_⟩
  have hsim := CseRelated.run hgE (Nat.le_refl _) m w
  rw [List.take_length] at hsim
  refine ⟨⟨hsim.error_eq, fun hok => ?_, hsim.log.imp fun _ _ h => h.1⟩, ?_, fun hma i hi => ?_,
    fun hma hok seed s hs => ?_, fun s hs => CseEnv.graph_len (E := E)
      (CseEnv.rename_of_keep hgE.evalOrder hs), fun i op s hop hps hne => CseEnv.sharesPrimal hgE hop hps hne m w⟩
  · have hrel := hsim.final hok
    refine ⟨hrel.world, fun r hr => hrel.final_read_of_rename hgE
      (CseEnv.rename_of_keep hgE.evalOrder ?_), ?_⟩
    · change g.cseKeep fills roots r = true
      simp [Graph.cseKeep, hr]
    · rw [hterms, hgraph, List.map_map]
      exact List.map_congr_left fun t _ => hrel.final_read hgE (hlenTerm t)
  · refine Rewriter.forall₂_run E.rewriter (fun p op k hk => ?_) E.init g.ops
    obtain ⟨h1, h2, h3, -⟩ := CseScan.emit_outs hk
    exact ⟨h3, by rw [Op.outs, Op.outs, h1, h2]⟩
  · obtain ⟨op, hop⟩ : ∃ op, g.ops[i]? = some op := by
      cases hi with
      | param hop => exact ⟨_, hop⟩
      | write hop => exact ⟨_, hop⟩
    exact CseEnv.mask_of_anyActive (E := E) hma hop
      (CseEnv.anyActive_of_reaches (E := E) hgE.evalOrder hma hi hop)
  · exact (hsim.final hok).reverse hgE hma (Machine.length_log_of_error_eq_none hok) hsim.log _ s hs

/-- One element of a parameter vector, read twice and stored into a data vector. -/
def repeatedReadGraph : Graph Unit where
  slots := [⟨2, true⟩, ⟨1, false⟩, ⟨1, false⟩, ⟨2, false⟩, ⟨2, false⟩, ⟨1, false⟩]
  ops :=
    [{ opcode := .index, out := 1, ins := [0], idata := [0] },
     { opcode := .index, out := 2, ins := [0], idata := [0] },
     { opcode := .setIndex, out := 4, ins := [3, 1], idata := [0] },
     { opcode := .setIndexInplace, out := 4, ins := [4, 2], idata := [1] },
     { opcode := .index, out := 5, ins := [4], idata := [1] }]
  resultSlot := some 5

lemma repeatedReadGraph_selfContained : SelfContained repeatedReadGraph := by
  have hstore : ∀ op ∈ repeatedReadGraph.ops, op.opcode.isStore = true →
      repeatedReadGraph.validStoreContract op = true := by decide
  have hload : ∀ op ∈ repeatedReadGraph.ops, op.opcode = .index → op.out2 = none ∧
      op.input 0 ∈ op.ins ∧ (op.imm 0).toNat < repeatedReadGraph.len (op.input 0) := by decide
  have hrouted : ∀ op ∈ repeatedReadGraph.ops, op.opcode.isStore = true ∨ op.opcode = .index := by
    decide
  have horder : EvalOrder repeatedReadGraph.ops := by decide
  refine ⟨fun n s op hop hs j hj => horder.writes_lt hop hs hj, by decide, by decide,
    fun op hop => ?_, by decide⟩
  rcases hrouted op hop with hs | hi
  · exact (Graph.storeContract_of_valid (hstore op hop hs)).inBounds hs
  · exact Op.inBounds_of_load hi (hload op hop hi)

/-- The second read shares the first one's primal, and nothing changes. -/
theorem repeatedReadGraph_preserves :
    ∃ mask, ∀ m w, CsePreserves { Kernels.empty Unit ℤ Unit Unit with registered := fun _ => true }
      repeatedReadGraph [(3, [7, 8])] [1, 2] [4] false mask m w :=
  cse_preserves _ _ repeatedReadGraph_selfContained _ _ _ _

example : (cse { Kernels.empty Unit ℤ Unit Unit with registered := fun _ => true }
    repeatedReadGraph [(3, [7, 8])] [1, 2] [4] false).primalsShared = 1 := by decide

end Stanli
