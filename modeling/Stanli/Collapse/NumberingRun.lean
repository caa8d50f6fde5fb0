import Stanli.Collapse.NumberingCorrect
import Stanli.Graph.Stores

/-!
# The executor's forward sweep

The runs that value numbering is about contain what the executor does: over a graph without cached
primals, whose in-place stores write their base, the arenas between the ops of a forward sweep that meets
no failure are a run, so elements with one number have one value in them (`forward_equal_numbers`).  What
the kernels compute is assumed shape by shape; the element read and the six stores are those of the sweep.
-/

namespace Stanli.Collapse

variable {U V S W : Type*}

/-! ## The shapes of stores -/

/-- The opcodes whose kernels are written out. -/
theorem routed_cases {op : Op U} (h : op.opcode.isRouted = true) :
    op.opcode = .index ∨ op.opcode ∈ [Opcode.setIndex, .setIndexInplace] ∨
      op.opcode ∈ [Opcode.setSlice, .setSliceInplace, .setSliceStrided, .setSliceStridedInplace] := by
  rw [Opcode.isRouted, Opcode.isCopyingStore, Opcode.isInplaceStore] at h
  simp only [Bool.or_eq_true, decide_eq_true_eq, List.mem_cons, List.not_mem_nil, or_false] at h ⊢
  tauto

theorem not_isElementwise {g : Graph U} {op : Op U} (h : op.opcode.isRouted = true) :
    isElementwise g op = false := by
  have htrait : (op.opcode.hasTrait .rerollWidenable || decide (op.opcode = .bcastFma)) = false := by
    have hcases := routed_cases h
    simp only [List.mem_cons, List.not_mem_nil, or_false] at hcases
    rcases hcases with hop | (hop | hop) | hop | hop | hop | hop <;> rw [hop] <;> rfl
  rw [isElementwise, htrait]
  rfl

/-- What `classify` says of an op whose kernel only moves values. -/
inductive Moves (g : Graph U) (op : Op U) : Shape → Prop
  | fresh : Moves g op .fresh
  | index (hop : op.opcode = .index) (hk : (op.imm 0).toNat < g.len (op.input 0)) : Moves g op .index
  | store (hop : op.opcode ∈ [Opcode.setIndex, .setIndexInplace])
      (hlen : g.len (op.input 0) = g.len op.out) (hone : g.len (op.input 1) = 1) : Moves g op .store
  | sliceWrite (hop : op.opcode ∈ [Opcode.setSlice, .setSliceInplace, .setSliceStrided,
      .setSliceStridedInplace]) (hlen : g.len (op.input 0) = g.len op.out)
      (hstride : 0 < sliceStride op) : Moves g op .sliceWrite

theorem moves (registered makesState : Opcode → Bool) (g : Graph U) {op : Op U}
    (h : op.opcode.isRouted = true) : Moves g op (classify registered makesState g op) := by
  have hgather : op.opcode ≠ .gather := by
    intro hop
    rw [hop] at h
    cases h
  have hread : op.opcode ∉ [Opcode.slice, .sliceStrided] := by
    intro hop
    rcases List.mem_pair.1 hop with hop | hop <;> rw [hop] at h <;> cases h
  rw [classify]
  dsimp only
  by_cases hmodelled : (op.out2.isSome || op.udata.isSome || decide (op.dynLengths ≠ 0)) = true
  · rw [if_pos hmodelled]
    exact .fresh
  rw [if_neg hmodelled, not_isElementwise h, if_neg Bool.false_ne_true, if_neg hgather]
  rcases routed_cases h with hop | hop | hop
  · rw [if_pos hop]
    split
    · rename_i hchecks
      obtain ⟨-, -, -, h0, h1⟩ := hchecks
      exact .index hop (by omega)
    · exact .fresh
  · have hindex : op.opcode ≠ .index := by
      intro heq
      rw [heq] at hop
      exact absurd hop (by decide)
    rw [if_neg hindex, if_pos hop]
    split
    · rename_i hchecks
      obtain ⟨-, -, hlen, hone, -, -⟩ := hchecks
      exact .store hop (by omega) (by omega)
    · exact .fresh
  · have hindex : op.opcode ≠ .index := by
      intro heq
      rw [heq] at hop
      exact absurd hop (by decide)
    have hstore : op.opcode ∉ [Opcode.setIndex, .setIndexInplace] := by
      intro heq
      rcases List.mem_pair.1 heq with heq | heq <;> rw [heq] at hop <;>
        exact absurd hop (by decide)
    rw [if_neg hindex, if_neg hstore, if_neg hread, if_pos hop]
    split
    · rename_i hchecks
      obtain ⟨-, hstride, hlen, -, -⟩ := hchecks
      exact .sliceWrite hop (by omega) hstride
    · exact .fresh

/-! ## One step -/

/-- The element a slot of one length gives is the one asked for. -/
theorem element_eq {g : Graph U} {s i : ℕ} (h : i < g.len s) : element g s i = i := by
  rw [element]
  split
  · omega
  · rfl

theorem comb_store {op : Op U} (h : op.opcode ∈ [Opcode.setIndex, .setIndexInplace]) (n : ℕ) :
    op.comb n = (sliceStart op, 1, 1) := by
  rw [Op.comb, if_pos (List.mem_pair.1 h)]
  rfl

theorem comb_sliceWrite {op : Op U} (h : op.opcode ∈ [Opcode.setSlice, .setSliceInplace,
    .setSliceStrided, .setSliceStridedInplace]) (hstride : 0 < sliceStride op) (n : ℕ) :
    op.comb n = (sliceStart op, (sliceStride op).toNat, n) := by
  rw [sliceStride] at hstride ⊢
  rw [Op.comb, sliceStart]
  simp only [List.mem_cons, List.not_mem_nil, or_false] at h
  rcases h with hop | hop | hop | hop <;> simp only [hop] at hstride ⊢ <;> grind

/-- The element read and the stores leave what their shapes say. -/
theorem leaves_of_routed {registered makesState : Opcode → Bool} {F : Functions V} {g : Graph U}
    {op : Op U} {m : Arena V} {buf : ℕ → V} (hhome : ∀ s, g.home s = s)
    (hbase : op.opcode.isInplaceStore = true → op.input 0 = op.out)
    (hbuf : op.routed g.bind m = some buf) :
    (classify registered makesState g op).Leaves F g op m buf := by
  have hrouted : op.opcode.isRouted = true := by
    by_contra h
    rw [Op.routed_eq_none (Bool.eq_false_iff.2 h)] at hbuf
    cases hbuf
  -- a copying store starts from its base, and an in-place one from the output, which is its base
  have hcomb : op.opcode ≠ .index → buf = writeComb (op.comb (g.len (op.input 1))).1
      (op.comb (g.len (op.input 1))).2.1 (op.comb (g.len (op.input 1))).2.2 (m (op.input 1))
      (m (op.input 0)) := by
    intro hindex
    rw [Op.routed] at hbuf
    simp only [Graph.bind, hhome, if_neg hindex] at hbuf
    split_ifs at hbuf with hcopy hinplace
    · exact (Option.some.inj hbuf).symm
    · rw [hbase hinplace]
      exact (Option.some.inj hbuf).symm
  have hmoves := moves registered makesState g hrouted
  generalize classify registered makesState g op = shape at hmoves ⊢
  cases hmoves with
  | fresh => trivial
  | index hop hk =>
    rw [Op.routed] at hbuf
    simp only [Graph.bind, hhome, if_pos hop] at hbuf
    rw [← Option.some.inj hbuf]
    change Function.update _ 0 _ 0 = _
    rw [Function.update_self, element_eq hk]
  | store hop hlen hone =>
    have hindex : op.opcode ≠ .index := by
      rcases List.mem_pair.1 hop with h | h <;> rw [h] <;> decide
    have hbuf := hcomb hindex
    rw [comb_store hop, writeComb_one] at hbuf
    intro k hk
    rw [hbuf, Function.update_apply, element_eq (by omega)]
    rfl
  | sliceWrite hop hlen hstride =>
    have hindex : op.opcode ≠ .index := by
      intro h
      rw [h] at hop
      exact absurd hop (by decide)
    have hbuf := hcomb hindex
    rw [comb_sliceWrite hop hstride] at hbuf
    intro k hk
    rw [hbuf]
    apply @writeComb_congr V (sliceStart op, (sliceStride op).toNat, g.len (op.input 1))
    · intro j hj
      exact congrArg (m (op.input 1)) (element_eq hj).symm
    · intro _
      rw [element_eq (by omega)]

/-- What the kernels of the other shapes compute. -/
def KernelsCompute (K : Kernels U V S W) (E : NumberingEnv U V) (F : Functions V) : Prop :=
  ∀ op ∈ E.g.ops, op.opcode.isRouted = false → ∀ (m : Arena V) (w w' : W) (r : KernelOut V S),
    K.call E.g.bind op (op.ins.map (E.g.bind.read m)) w = .ok (r, w') →
    (classify E.registered E.makesState E.g op).Leaves F E.g op m r.out

/-- One step of the sweep. -/
theorem computes_of_forwardOp {K : Kernels U V S W} {E : NumberingEnv U V} {F : Functions V}
    (hK : KernelsCompute K E F) (hhome : ∀ s, E.g.home s = s) {op : Op U} (hmem : op ∈ E.g.ops)
    (hplain : op.primalSource = none)
    (hbase : op.opcode.isInplaceStore = true → op.input 0 = op.out) {st st' : SweepState V S W}
    {o : LogEntry V S} (h : forwardOp K E.g.bind op st = .ok (st', o)) :
    Computes (classify E.registered E.makesState E.g op) F E.g op st.mem st'.mem := by
  have hbind : ∀ s, E.g.bind.home s = s := hhome
  cases hbuf : op.routed E.g.bind st.mem with
  | some buf =>
    rw [forwardOp_routed hplain hbuf, Except.ok.injEq, Prod.mk.injEq] at h
    obtain ⟨rfl, -⟩ := h
    refine ⟨fun s hs => ?_, ?_⟩
    · dsimp only
      rw [hbind, Function.update_of_ne]
      exact fun heq => hs (Op.mem_outs.2 (.inl heq))
    · dsimp only
      rw [hbind, Function.update_self]
      exact leaves_of_routed hhome hbase hbuf
  | none =>
    have hrouted : op.opcode.isRouted = false := by
      rw [Op.routed] at hbuf
      split_ifs at hbuf with hindex hcopy hinplace
      simp [Opcode.isRouted, hindex, hcopy, hinplace]
    rw [forwardOp_kernel hplain hrouted] at h
    cases hcall : K.call E.g.bind op (op.ins.map (E.g.bind.read st.mem)) st.world with
    | error e =>
      rw [hcall] at h
      cases h
    | ok r =>
      rw [hcall, Except.map, Except.ok.injEq, Prod.mk.injEq] at h
      obtain ⟨rfl, -⟩ := h
      have hleaves := hK op hmem hrouted st.mem st.world r.2 r.1 hcall
      dsimp only
      rw [Op.store]
      cases hout2 : op.out2 with
      | none =>
        dsimp only
        refine ⟨fun s hs => ?_, ?_⟩
        · rw [hbind, Function.update_of_ne]
          exact fun heq => hs (Op.mem_outs.2 (.inl heq))
        · rw [hbind, Function.update_self]
          exact hleaves
      | some t =>
        have hfresh : classify E.registered E.makesState E.g op = .fresh := by
          by_contra hne
          rw [classify_out2 hne] at hout2
          cases hout2
        rw [hfresh]
        refine ⟨fun s hs => ?_, trivial⟩
        rw [Op.mem_outs, not_or] at hs
        dsimp only
        rw [hbind, hbind, Function.update_of_ne, Function.update_of_ne hs.1]
        exact fun heq => hs.2 (heq ▸ hout2)

/-- The arena of a forward sweep in front of op `k`. -/
def sweepArena (K : Kernels U V S W) (g : Graph U) (m : Arena V) (w : W) (k : ℕ) : Arena V :=
  ((forwardMachine K g.bind).run (g.ops.take k) ⟨m, w, fun _ => none⟩).state.mem

/-- The arenas of a forward sweep that meets no failure are a run. -/
theorem run_of_forward {K : Kernels U V S W} {E : NumberingEnv U V} {F : Functions V}
    (hK : KernelsCompute K E F) (hplain : ∀ op ∈ E.g.ops, op.primalSource = none)
    (hbase : ∀ op ∈ E.g.ops, op.opcode.isInplaceStore = true → op.input 0 = op.out)
    {theta base m : Arena V}
    (hm : ∀ s, m s = if E.g.isParam s then theta s else Fills.apply E.fills base s) {w : W}
    (hok : (E.g.forward K m w).error = none) : Run E F (sweepArena K E.g m w) where
  initial := ⟨theta, base, hm⟩
  step k op hop := by
    unfold sweepArena
    have hhome : ∀ s, E.g.home s = s := fun s => Graph.home_of_forall fun op hop hcached =>
      absurd hcached (by simp [Op.cached_eq_false (hplain op hop)])
    have hmem := List.mem_of_getElem? hop
    obtain ⟨hk, rfl⟩ := List.getElem?_eq_some_iff.1 hop
    have hsplit : E.g.ops.take (k + 1) = E.g.ops.take k ++ [E.g.ops[k]] :=
      List.take_succ_eq_append_getElem hk
    have hprefix : ((forwardMachine K E.g.bind).run (E.g.ops.take (k + 1))
        ⟨m, w, fun _ => none⟩).error = none := by
      have hall : ((forwardMachine K E.g.bind).run (E.g.ops.take (k + 1) ++ E.g.ops.drop (k + 1))
          ⟨m, w, fun _ => none⟩).error = none := by
        rw [List.take_append_drop]
        exact hok
      exact Machine.error_eq_none_of_append hall
    rw [hsplit] at hprefix ⊢
    have hpast := Machine.error_eq_none_of_append hprefix
    rw [(Machine.run_append hpast).1]
    rw [(Machine.run_append hpast).2] at hprefix
    generalize ((forwardMachine K E.g.bind).run (E.g.ops.take k) ⟨m, w, fun _ => none⟩).state = st
      at hprefix ⊢
    cases hstep : forwardOp K E.g.bind E.g.ops[k] st with
    | error e =>
      rw [Machine.run_cons_error (M := forwardMachine K E.g.bind) hstep] at hprefix
      cases hprefix
    | ok r =>
      obtain ⟨st', o⟩ := r
      rw [Machine.run_cons_ok (M := forwardMachine K E.g.bind) hstep]
      exact computes_of_forwardOp hK hhome hmem (hplain _ hmem) (hbase _ hmem) hstep

/-- Whatever is asked between the ops, elements with one number have one value in the sweep. -/
theorem forward_equal_numbers {K : Kernels U V S W} {E : NumberingEnv U V} {F : Functions V}
    (hK : KernelsCompute K E F) (hplain : ∀ op ∈ E.g.ops, op.primalSource = none)
    (hbase : ∀ op ∈ E.g.ops, op.opcode.isInplaceStore = true → op.input 0 = op.out)
    (hfills : (E.fills.map Prod.fst).Nodup) {theta base m : Arena V}
    (hm : ∀ s, m s = if E.g.isParam s then theta s else Fills.apply E.fills base s) {w : W}
    (hok : (E.g.forward K m w).error = none) {queries : ℕ → List NumberingEnv.Query}
    (hqueries : ∀ k, ∀ q ∈ queries k, q.InRange E.g) {n : ℕ} (hn : n ≤ E.g.ops.length) :
    ∀ r ∈ (E.pass queries n).1, ∀ r' ∈ (E.pass queries n).1, r.number = r'.number →
      ∀ s i s' i', r.query = .elem s i → r'.query = .elem s' i' →
        argument E.g (sweepArena K E.g m w r.pos) (s, i) =
          argument E.g (sweepArena K E.g m w r'.pos) (s', i') := by
  intro r hr r' hr' hnumber s i s' i' hq hq'
  obtain ⟨den, -, hanswers⟩ := pass_inv (run_of_forward hK hplain hbase hm hok) hfills hqueries n hn
  have h := hanswers r hr
  have h' := hanswers r' hr'
  rw [Answered, hq] at h
  rw [Answered, hq', ← hnumber] at h'
  exact Operand.scalar.inj (Meaning.value.inj (h.unique h'))

/-- The arena before the sweep of `storedParam`, at the parameter value seven. -/
theorem forward_storedParam :
    argument storedParam.g (sweepArena (.empty Unit ℤ Unit Unit) storedParam.g (storedParamRun 0) () 0)
        (0, 0) =
      argument storedParam.g (sweepArena (.empty Unit ℤ Unit Unit) storedParam.g (storedParamRun 0) () 1)
        (1, 1) := by
  have hqueries : ∀ k, ∀ q ∈ storedParamQueries k, q.InRange storedParam.g := by
    rintro (_ | k) q hq <;> rw [List.mem_singleton.1 hq]
    · exact .inl rfl
    · exact .inr (by decide)
  have hK : KernelsCompute (.empty Unit ℤ Unit Unit) storedParam ⟨fun _ _ _ _ => 0, fun _ _ => 0⟩ := by
    intro op hop h
    rw [List.mem_singleton.1 hop] at h
    cases h
  exact forward_equal_numbers hK (by decide) (by decide) (by decide)
    (run_storedParam ⟨fun _ _ _ _ => 0, fun _ _ => 0⟩).initial.choose_spec.choose_spec rfl hqueries le_rfl
    ⟨0, .elem 0 0, [], 1⟩ (by decide +kernel) ⟨1, .elem 1 1, [], 1⟩ (by decide +kernel) rfl 0 0 1 1 rfl rfl

end Stanli.Collapse
