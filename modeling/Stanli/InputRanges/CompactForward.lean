import Stanli.InputRanges.Hulls
import Stanli.Passes.ElideStoresForward

/-!
# The forward sweep of a compacted graph

Cell `e` of a slot of the compacted graph is cell `lo + e` of the slot it came from, throughout the
sweep.  The two sweeps run the same kernels on the same values, except that a window read is told
another start; the only trace of that is the scratch of a slice.
-/

namespace Stanli

variable {U V S W : Type*}

/-! ## Shared primals -/

/-- The op whose primal a cached op shares writes the slot it names, makes the same call, and leaves a
buffer that is long enough; an op that runs its kernel has buffers of its own. -/
structure Graph.SharesPrimals (g : Graph U) : Prop where
  own : ∀ op ∈ g.ops, op.cached = false → ∀ s ∈ op.outs, g.home s = s
  written : ∀ op ∈ g.ops, ∀ t, op.cached = true → op.primalSource = some t →
    (∃ o ∈ g.ops, o.out = t) ∧ g.len op.out ≤ g.len t
  same : ∀ op ∈ g.ops, ∀ o ∈ g.ops, op.cached = true → op.primalSource = some o.out →
    o.primalSource = some o.out → o.call = op.call ∧ o.ins.length = op.ins.length ∧ o.out2 = op.out2

namespace Graph

variable {g : Graph U} {fills : Fills V} {h : Hull}

lemma pinned_of_mem_outs {op : Op U} (hop : op ∈ g.ops) {s : ℕ} (hs : s ∈ op.outs) :
    g.pinned s = true := by
  have hw : g.written s = true := List.any_eq_true.2 ⟨op, hop, decide_eq_true hs⟩
  simp [Graph.pinned, hw]

/-- A slot uses its own buffer, or it is the output of a cached op and uses a written one. -/
lemma SharesPrimals.home_cases (hg : g.SharesPrimals) (s : ℕ) :
    g.home s = s ∨ g.pinned s = true ∧ g.pinned (g.home s) = true ∧ g.len s ≤ g.len (g.home s) := by
  by_cases hex : ∃ op ∈ g.ops, op.cached = true ∧ op.out = s
  · right
    have hne : (g.ops.filter fun op => op.cached && op.out == s) ≠ [] := by
      obtain ⟨op, hop, hc, hs⟩ := hex
      exact List.ne_nil_of_mem (List.mem_filter.2 ⟨hop, by simp [hc, hs]⟩)
    obtain ⟨hmem, hcond⟩ := List.mem_filter.1 (List.getLast_mem hne)
    set op := (g.ops.filter fun op => op.cached && op.out == s).getLast hne with hop
    rw [Bool.and_eq_true, beq_iff_eq] at hcond
    obtain ⟨hc, hs⟩ := hcond
    cases hp : op.primalSource with
    | none => exact absurd hc (by simp [Op.cached, hp])
    | some t =>
      have hhome : g.home s = t := by
        rw [Graph.home, List.getLast?_eq_some_getLast hne, ← hop, Option.bind_some, hp]
        rfl
      obtain ⟨⟨o, ho, hot⟩, hlen⟩ := hg.written op hmem t hc hp
      rw [hhome, ← hs]
      exact ⟨pinned_of_mem_outs hmem (by simp), pinned_of_mem_outs ho (by simp [hot]), hlen⟩
  · left
    apply Graph.home_of_forall
    intro op hop hc hs
    exact hex ⟨op, hop, hc, hs⟩

/-! ## The compacted graph -/

lemma compact_getElem? (s : ℕ) :
    (g.compact h).slots[s]? = (g.slots[s]?).map fun slot => { slot with len := h.len s } := by
  simp only [Graph.compact, Graph.compactSlots, List.getElem?_map, List.getElem?_zipIdx,
    Option.map_map, Nat.zero_add]
  rfl

lemma compact_len (hc : ChildHull g fills h) (s : ℕ) : (g.compact h).len s = h.len s := by
  unfold Graph.len
  rw [compact_getElem?, Option.map_map]
  cases hs : g.slots[s]? with
  | some slot => rfl
  | none =>
    have hle := hc.le s
    have hlen : g.len s = 0 := by simp [Graph.len, hs]
    simp only [Hull.len, Option.map_none, Option.getD_none]
    omega

@[simp] lemma compact_isParam (s : ℕ) : (g.compact h).isParam s = g.isParam s := by
  unfold Graph.isParam
  rw [compact_getElem?, Option.map_map]
  rfl

lemma rebase_eq (op : Op U) : g.rebase h op = { op with idata := (g.rebase h op).idata } := by
  unfold Graph.rebase
  split <;> rfl

@[simp] lemma rebase_outs (op : Op U) : (g.rebase h op).outs = op.outs := by
  rw [rebase_eq]
  rfl

@[simp] lemma rebase_out (op : Op U) : (g.rebase h op).out = op.out := by
  rw [rebase_eq]

@[simp] lemma rebase_ins (op : Op U) : (g.rebase h op).ins = op.ins := by
  rw [rebase_eq]

@[simp] lemma rebase_cached (op : Op U) : (g.rebase h op).cached = op.cached := by
  rw [rebase_eq]
  rfl

@[simp] lemma rebase_primalSource (op : Op U) : (g.rebase h op).primalSource = op.primalSource := by
  rw [rebase_eq]

lemma rebase_of_not_window {op : Op U} (hw : op.isWindowRead = false) : g.rebase h op = op := by
  rw [Graph.rebase, if_neg (by simp [hw])]

@[simp] lemma compact_written (s : ℕ) : (g.compact h).written s = g.written s := by
  rw [Graph.written, Graph.written, Graph.compact, List.any_map]
  congr 1
  funext op
  rw [Function.comp_apply, rebase_outs]

@[simp] lemma compact_home (s : ℕ) : (g.compact h).home s = g.home s := by
  unfold Graph.home
  have hfilter : (g.compact h).ops.filter (fun op => op.cached && op.out == s) =
      (g.ops.filter fun op => op.cached && op.out == s).map (g.rebase h) := by
    rw [Graph.compact, List.filter_map]
    congr 1
    apply List.filter_congr
    intro op _
    simp
  rw [hfilter, List.getLast?_map]
  cases (g.ops.filter fun op => op.cached && op.out == s).getLast? with
  | none => rfl
  | some op => simp

lemma compact_bind_home : (g.compact h).bind.home = g.home := funext compact_home

lemma compact_active (s : ℕ) : (g.compact h).bind.active s = g.bind.active s := by
  simp [Graph.bind]

end Graph

/-! ## Cells -/

section Cells

variable {g : Graph U} {fills : Fills V} {h : Hull} {m m' : Arena V}

/-- Each cell of the compacted arena is the one it came from. -/
def CellsFrom (h : Hull) (m m' : Arena V) : Prop :=
  ∀ s e, e < h.len s → m' s e = m s (h.lo s + e)

/-- The hull is the whole slot. -/
def Graph.Whole (g : Graph U) (h : Hull) (s : ℕ) : Prop := h.lo s = 0 ∧ h.hi s = g.len s

lemma Graph.Whole.len {s : ℕ} (hw : g.Whole h s) : h.len s = g.len s := by
  rw [Hull.len, hw.1, hw.2, Nat.sub_zero]

lemma ChildHull.whole_of_len (hc : ChildHull g fills h) {s : ℕ} (hlen : h.len s = g.len s) :
    g.Whole h s := by
  have hle := hc.le s
  unfold Hull.len at hlen
  exact ⟨by omega, by omega⟩

/-- A slot that is not whole has its own buffer. -/
lemma ChildHull.home_of_not_whole (hc : ChildHull g fills h) (hg : g.SharesPrimals) {s : ℕ}
    (hw : ¬ g.Whole h s) : g.home s = s := by
  rcases hg.home_cases s with hs | ⟨hs, -, -⟩
  · exact hs
  · exact absurd (hc.pinned s hs) hw

/-- Whole slots hold the same. -/
lemma CellsFrom.whole (hm : CellsFrom h m m') (hc : ChildHull g fills h) (hg : g.SharesPrimals) {s : ℕ}
    (hw : g.Whole h s) {e : ℕ} (he : e < g.len s) : m' (g.home s) e = m (g.home s) e := by
  have hwhole : ∀ t, g.Whole h t → g.len s ≤ g.len t → m' t e = m t e := by
    intro t ht hle
    rw [hm t e (by rw [ht.len]; omega), ht.1, Nat.zero_add]
  rcases hg.home_cases s with hs | ⟨-, hp, hle⟩
  · rw [hs]
    exact hwhole s hw (Nat.le_refl _)
  · exact hwhole _ (hc.pinned _ hp) hle

lemma CellsFrom.read (hm : CellsFrom h m m') (hc : ChildHull g fills h) (hg : g.SharesPrimals) {s : ℕ}
    (hw : g.Whole h s) : (g.compact h).bind.read m' s = g.bind.read m s := by
  have hlen : (g.compact h).bind.len s = g.bind.len s := by
    change (g.compact h).len s = g.len s
    rw [Graph.compact_len hc, hw.len]
  refine Binding.read_eq_read hlen fun e he => ?_
  rw [hlen] at he
  change m' ((g.compact h).home s) e = m (g.home s) e
  rw [Graph.compact_home]
  exact hm.whole hc hg hw he

lemma CellsFrom.reads (hm : CellsFrom h m m') (hc : ChildHull g fills h) (hg : g.SharesPrimals)
    {op : Op U} (hop : op ∈ g.ops) (hw : op.isWindowRead = false) :
    op.ins.map ((g.compact h).bind.read m') = op.ins.map (g.bind.read m) :=
  List.map_congr_left fun s hs => hm.read hc hg ((hc.reads op hop s hs).whole hw)

/-- Overwriting a pinned slot by the same cells. -/
lemma CellsFrom.update (hm : CellsFrom h m m') (hc : ChildHull g fills h) {s : ℕ}
    (hs : g.pinned s = true) {u v : ℕ → V} (hcells : ∀ e < g.len s, v e = u e) :
    CellsFrom h (Function.update m s u) (Function.update m' s v) := by
  intro t e he
  by_cases hts : t = s
  · subst hts
    rw [Function.update_self, Function.update_self, (hc.pinned t hs).1, Nat.zero_add]
    apply hcells
    rwa [Graph.Whole.len (hc.pinned t hs)] at he
  · rw [Function.update_of_ne hts, Function.update_of_ne hts]
    exact hm t e he

end Cells

/-! ## One step -/

/-- A slice read through a window. -/
def Op.IsSlice (op : Op U) : Prop := op.isWindowRead = true ∧ op.opcode = .slice

/-- The state of the compacted sweep and the one it comes from. -/
structure SweepFrom (g : Graph U) (h : Hull) (σ τ : SweepState V S W) : Prop where
  cells : CellsFrom h σ.mem τ.mem
  world : τ.world = σ.world
  shared : ∀ t, τ.shared t = σ.shared t ∨
    ((σ.shared t).isSome = true ∧ (τ.shared t).isSome = true ∧
      ∃ o ∈ g.ops, o.out = t ∧ o.primalSource = some t ∧ o.IsSlice)

/-- The scratch of an op is the same, unless it is a slice. -/
def EntryFrom (op : Op U) (o o' : LogEntry V S) : Prop := o'.scratch = o.scratch ∨ op.IsSlice

section Step

variable {K : Kernels U V S W} {g : Graph U} {fills : Fills V} {h : Hull} {σ τ : SweepState V S W}
  {op : Op U}

/-- What a step of an op that runs its kernel leaves. -/
def ranStep (b : Binding) (op : Op U) (st : SweepState V S W) (mem : Arena V) (world : W)
    (scratch : Option S) : SweepState V S W × LogEntry V S :=
  (⟨mem, world, op.share scratch st.shared⟩, ⟨op.shown b st.mem, scratch⟩)

lemma forwardOp_ran_routed {b : Binding} {st : SweepState V S W} {buf : ℕ → V}
    (hc : op.cached = false) (hr : op.routed b st.mem = some buf) :
    forwardOp K b op st =
      .ok (ranStep b op st (Function.update st.mem (b.home op.out) buf) st.world none) := by
  simp [forwardOp, hc, hr, ranStep]

lemma forwardOp_ran_kernel {b : Binding} {st : SweepState V S W} (hc : op.cached = false)
    (hr : op.opcode.isRouted = false) :
    forwardOp K b op st = (K.call b op (op.ins.map (b.read st.mem)) st.world).map fun r =>
      ranStep b op st (op.store b r.1.out r.1.out2 st.mem) r.2 (some r.1.scratch) := by
  simp only [forwardOp, hc, Op.routed_eq_none hr, ranStep]
  cases K.call b op (op.ins.map (b.read st.mem)) st.world <;> rfl

/-- Two ops that have run leave sweeps that come from each other, if their buffers do. -/
lemma SweepFrom.ran (hst : SweepFrom g h σ τ) {b b' : Binding} (hop : op ∈ g.ops)
    {mem mem' : Arena V} (hmem : CellsFrom h mem mem') {w : W} {scratch scratch' : Option S}
    (hscratch : scratch' = scratch ∨ op.IsSlice) :
    SweepFrom g h (ranStep b op σ mem w scratch).1
        (ranStep b' (g.rebase h op) τ mem' w scratch').1 ∧
      EntryFrom op (ranStep b op σ mem w scratch).2
        (ranStep b' (g.rebase h op) τ mem' w scratch').2 := by
  refine ⟨⟨hmem, rfl, fun t => ?_⟩, hscratch⟩
  simp only [ranStep, Op.share, Graph.rebase_primalSource, Graph.rebase_out]
  by_cases hp : op.primalSource = some op.out
  · rw [if_pos hp, if_pos hp]
    by_cases ht : t = op.out
    · subst ht
      rw [Function.update_self, Function.update_self]
      rcases hscratch with hscratch | hslice
      · exact .inl (by rw [hscratch])
      · exact .inr ⟨rfl, rfl, op, hop, rfl, hp, hslice⟩
    · rw [Function.update_of_ne ht, Function.update_of_ne ht]
      exact hst.shared t
  · rw [if_neg hp, if_neg hp]
    exact hst.shared t

/-- The two sweeps after one op: both fail alike, or the states still come from each other. -/
def StepFrom (K : Kernels U V S W) (g : Graph U) (h : Hull) (op : Op U)
    (σ τ : SweepState V S W) : Prop :=
  (∃ e, forwardOp K g.bind op σ = .error e ∧
    forwardOp K (g.compact h).bind (g.rebase h op) τ = .error e) ∨
  ∃ σ' o τ' o', forwardOp K g.bind op σ = .ok (σ', o) ∧
    forwardOp K (g.compact h).bind (g.rebase h op) τ = .ok (τ', o') ∧
    SweepFrom g h σ' τ' ∧ EntryFrom op o o'

/-- Two steps that ran and left buffers that come from each other. -/
lemma SweepFrom.step_ran (hst : SweepFrom g h σ τ) (hop : op ∈ g.ops) {mem mem' : Arena V}
    (hmem : CellsFrom h mem mem') {w : W} {c d : Option S}
    (hkept : d = c ∨ op.IsSlice)
    (hσ : forwardOp K g.bind op σ = .ok (ranStep g.bind op σ mem w c))
    (hτ : forwardOp K (g.compact h).bind (g.rebase h op) τ =
      .ok (ranStep (g.compact h).bind (g.rebase h op) τ mem' w d)) : StepFrom K g h op σ τ := by
  exact .inr ⟨_, _, _, _, hσ, hτ, hst.ran hop hmem hkept⟩

lemma forwardOp_cached_none {b : Binding} {st : SweepState V S W} {t : ℕ} (hc : op.cached = true)
    (hp : op.primalSource = some t) (hs : st.shared t = none) :
    forwardOp K b op st = .error "cached primal precedes its source" := by
  simp [forwardOp, hc, hp, hs]

lemma forwardOp_cached_some {b : Binding} {st : SweepState V S W} {t : ℕ} {s : Option S}
    (hc : op.cached = true) (hp : op.primalSource = some t) (hs : st.shared t = some s) :
    forwardOp K b op st = .ok (st, ⟨op.shown b st.mem, s⟩) := by
  simp [forwardOp, hc, hp, hs]

/-- A cached op takes the scratch of its survivor. -/
lemma SweepFrom.cached (hst : SweepFrom g h σ τ) (hg : g.SharesPrimals) (hop : op ∈ g.ops)
    (hcached : op.cached = true) : StepFrom K g h op σ τ := by
  have hcached' : (g.rebase h op).cached = true := by rw [Graph.rebase_cached, hcached]
  cases hp : op.primalSource with
  | none => exact absurd hcached (by simp [Op.cached, hp])
  | some t =>
    have hp' : (g.rebase h op).primalSource = some t := by rw [Graph.rebase_primalSource, hp]
    cases hσ : σ.shared t with
    | none =>
      rcases hst.shared t with heq | ⟨hsome, -⟩
      · exact .inl ⟨_, forwardOp_cached_none hcached hp hσ,
          forwardOp_cached_none hcached' hp' (heq.trans hσ)⟩
      · exact absurd hsome (by simp [hσ])
    | some s =>
      have hleft := forwardOp_cached_some (K := K) (b := g.bind) hcached hp hσ
      rcases hst.shared t with heq | ⟨-, hτ, o, ho, hot, hself, hw, hslice⟩
      · exact .inr ⟨_, _, _, _, hleft, forwardOp_cached_some hcached' hp' (heq.trans hσ), hst,
          .inl rfl⟩
      · obtain ⟨s', hs'⟩ := Option.isSome_iff_exists.1 hτ
        subst hot
        obtain ⟨hcall, hlen, hout2⟩ := hg.same op hop o ho hcached hp hself
        have hoc : o.opcode = op.opcode := congrArg KernelCall.opcode hcall
        have hvariant : o.variant = op.variant := congrArg KernelCall.variant hcall
        refine .inr ⟨_, _, _, _, hleft, forwardOp_cached_some hcached' hp' hs', hst, .inr ?_⟩
        refine ⟨?_, hoc ▸ hslice⟩
        rw [← hw]
        simp only [Op.isWindowRead, hoc, hvariant, hlen, hout2]

/-- What an op that moves cells of whole inputs leaves in its output. -/
lemma SweepFrom.routed (hst : SweepFrom g h σ τ) (hc : ChildHull g fills h) (hg : g.SharesPrimals)
    (hop : op ∈ g.ops) (hw : op.isWindowRead = false) (hsafe : op.InBounds g.len)
    (hr : op.opcode.isRouted = true) :
    ∃ buf buf', op.routed g.bind σ.mem = some buf ∧
      op.routed (g.compact h).bind τ.mem = some buf' ∧ ∀ e < g.len op.out, buf' e = buf e := by
  have hout : g.pinned op.out = true := Graph.pinned_of_mem_outs hop (by simp)
  have hlen : ∀ s ∈ op.ins, (g.compact h).bind.len s = g.len s := fun s hs => by
    rw [Graph.bind_len, Graph.compact_len hc, Graph.Whole.len ((hc.reads op hop s hs).whole hw)]
  have hcell : ∀ s ∈ op.ins, ∀ e < g.len s, τ.mem (g.home s) e = σ.mem (g.home s) e :=
    fun s hs e he => hst.cells.whole hc hg ((hc.reads op hop s hs).whole hw) he
  rcases Opcode.isRouted_iff.1 hr with hi | hcp | hip
  · obtain ⟨hm0, hlt⟩ := hsafe.load hi
    refine ⟨_, _, Op.routed_index hi _ _, Op.routed_index hi _ _, fun e he => ?_⟩
    rw [Graph.compact_bind_home, Function.update_apply, Function.update_apply]
    split
    · exact hcell _ hm0 _ hlt
    · exact hst.cells.whole hc hg (hc.pinned _ hout) he
  · obtain ⟨hl, hn⟩ := hsafe.rhs (by simp [Opcode.isStore, hcp])
    have hm0 : op.input 0 ∈ op.ins := Op.input_mem (by omega)
    have hm1 : op.input 1 ∈ op.ins := Op.input_mem hl
    refine ⟨_, _, Op.routed_copying hcp _ _, Op.routed_copying hcp _ _, fun e he => ?_⟩
    rw [Graph.compact_bind_home, hlen _ hm1]
    refine writeComb_congr (fun k hk => hcell _ hm1 k (Nat.lt_of_lt_of_le hk hn))
      fun _ => hcell _ hm0 e (Nat.lt_of_lt_of_le he (hsafe.base hcp))
  · exact absurd (hc.copying op hop) (by simp [hip])

/-- Storing what a kernel returned. -/
lemma CellsFrom.store {m m' : Arena V} (hm : CellsFrom h m m') (hc : ChildHull g fills h)
    (hg : g.SharesPrimals) (hop : op ∈ g.ops) (hcached : op.cached = false) (op' : Op U)
    (hout : op'.out = op.out) (hout2 : op'.out2 = op.out2) {u v u2 : ℕ → V}
    (hcells : ∀ e < g.len op.out, v e = u e) :
    CellsFrom h (op.store g.bind u u2 m) (op'.store (g.compact h).bind v u2 m') := by
  have hpin : ∀ s ∈ op.outs, g.pinned s = true := fun s hs => Graph.pinned_of_mem_outs hop hs
  have hhome : ∀ s ∈ op.outs, g.bind.home s = s := hg.own op hop hcached
  have h1 := hm.update hc (hpin op.out (by simp)) hcells
  have hhome' : ∀ s, (g.compact h).bind.home s = g.bind.home s := fun s => by
    rw [Graph.compact_bind_home]
    rfl
  cases ho : op.out2 with
  | none =>
    rw [Op.store, Op.store, hout2, ho, hout, hhome', hhome op.out (by simp)]
    exact h1
  | some o =>
    rw [Op.store, Op.store, hout2, ho, hout, hhome', hhome op.out (by simp)]
    dsimp only
    rw [hhome', hhome o (by simp [ho])]
    exact h1.update hc (hpin o (by simp [ho])) fun _ _ => rfl

/-- An op that reads whole inputs reads the same in both sweeps. -/
lemma SweepFrom.whole (hst : SweepFrom g h σ τ) (hc : ChildHull g fills h) (hg : g.SharesPrimals)
    (hop : op ∈ g.ops) (hcached : op.cached = false) (hw : op.isWindowRead = false)
    (hsafe : op.InBounds g.len) : StepFrom K g h op σ τ := by
  have hrebase : g.rebase h op = op := Graph.rebase_of_not_window hw
  by_cases hr : op.opcode.isRouted = true
  · obtain ⟨buf, buf', hbuf, hbuf', heq⟩ := hst.routed hc hg hop hw hsafe hr
    have hout : g.pinned op.out = true := Graph.pinned_of_mem_outs hop (by simp)
    have hhome : g.home op.out = op.out := hg.own op hop hcached op.out (by simp)
    apply hst.step_ran hop (hst.cells.update hc hout heq) (c := none) (.inl rfl)
    · rw [forwardOp_ran_routed hcached hbuf]
      change Except.ok (ranStep _ op σ (Function.update σ.mem (g.home op.out) buf) _ _) = _
      rw [hhome]
    · rw [hrebase, forwardOp_ran_routed hcached hbuf', Graph.compact_bind_home, hhome, hst.world]
  · rw [Bool.not_eq_true] at hr
    have hlenOut : ∀ s ∈ op.outs, (g.compact h).bind.len s = g.bind.len s := fun s hs => by
      rw [Graph.bind_len, Graph.compact_len hc,
        Graph.Whole.len (hc.pinned s (Graph.pinned_of_mem_outs hop hs)), Graph.bind_len]
    have hout2 : op.out2.map (g.compact h).bind.len = op.out2.map g.bind.len := by
      cases h2 : op.out2 with
      | none => rfl
      | some o => rw [Option.map_some, Option.map_some, hlenOut o (by simp [h2])]
    have hcall : K.call (g.compact h).bind op (op.ins.map ((g.compact h).bind.read τ.mem)) τ.world =
        K.call g.bind op (op.ins.map (g.bind.read σ.mem)) σ.world := by
      rw [hst.cells.reads hc hg hop hw, hst.world,
        @Kernels.call_congr U V S W K g.bind _ op _ rfl (hlenOut _ (by simp)) hout2]
    cases hk : K.call g.bind op (op.ins.map (g.bind.read σ.mem)) σ.world with
    | error e =>
      refine .inl ⟨e, ?_, ?_⟩
      · rw [forwardOp_ran_kernel hcached hr, hk, Except.map]
      · rw [hrebase, forwardOp_ran_kernel hcached hr, hcall, hk, Except.map]
    | ok r =>
      apply hst.step_ran hop
        (hst.cells.store hc hg hop hcached op rfl rfl (u := r.1.out) fun _ _ => rfl)
        (c := some r.1.scratch) (.inl rfl)
      · rw [forwardOp_ran_kernel hcached hr, hk, Except.map]
      · rw [hrebase, forwardOp_ran_kernel hcached hr, hcall, hk, Except.map]

/-! ## Window reads -/

/-- The cell a window read of the compacted graph finds is the one it found before. -/
lemma CellsFrom.home {m m' : Arena V} (hm : CellsFrom h m m') (hc : ChildHull g fills h)
    (hg : g.SharesPrimals) {s e : ℕ} (he : e < h.len s) :
    m' (g.home s) e = m (g.home s) (h.lo s + e) := by
  by_cases hw : g.Whole h s
  · rw [hw.len] at he
    rw [hm.whole hc hg hw he, hw.1, Nat.zero_add]
  · rw [hc.home_of_not_whole hg hw]
    exact hm s e he

lemma Op.ins_of_isWindowRead (hw : op.isWindowRead = true) : op.ins = [op.input 0] :=
  Op.input_eq_of_isWindowRead hw

lemma Op.facts_of_isWindowRead (hw : op.isWindowRead = true) :
    op.out2 = none ∧ op.variant = 0 ∧ (op.opcode = .index ∨ op.opcode = .slice) := by
  simp only [Op.isWindowRead, Bool.and_eq_true, Bool.or_eq_true, decide_eq_true_iff,
    Option.isNone_iff_eq_none] at hw
  exact ⟨hw.1.1.2, hw.1.2, hw.2⟩

/-- The window of a read and the window of the rebased read are the same cells. -/
lemma ChildHull.rebase_window (hc : ChildHull g fills h) (hop : op ∈ g.ops)
    (hw : op.isWindowRead = true) :
    ∃ start : ℕ, (g.rebase h op).idata = [(start : ℤ)] ∧
      start + g.len op.out ≤ h.len (op.input 0) ∧
      (0 < g.len op.out → h.lo (op.input 0) + start = (op.imm 0).toNat) := by
  have hs : op.input 0 ∈ op.ins := by
    rw [Op.ins_of_isWindowRead hw]
    exact List.mem_singleton.2 rfl
  have hread := hc.reads op hop _ hs
  have hfits := hread.fits hw
  have hout : h.len op.out = g.len op.out :=
    Graph.Whole.len (hc.pinned _ (Graph.pinned_of_mem_outs hop (by simp)))
  by_cases hlen : h.len (op.input 0) = g.len (op.input 0)
  · refine ⟨(op.imm 0).toNat, ?_, by omega, fun _ => ?_⟩
    · rw [Graph.rebase, if_neg (by simp [hlen])]
      exact hread.idata hw
    · rw [(hc.whole_of_len hlen).1, Nat.zero_add]
  · rw [Graph.rebase, if_pos ⟨hw, hlen⟩, hout]
    have himm : op.imm 0 = ((op.imm 0).toNat : ℤ) := by
      conv_lhs => rw [Op.imm, hread.idata hw]
      rfl
    by_cases hpos : g.len op.out = 0
    · exact ⟨0, by simp [hpos], by omega, fun h0 => absurd h0 (by omega)⟩
    · obtain ⟨hlo, hhi⟩ := hread.window hw (Nat.pos_of_ne_zero hpos)
      refine ⟨(op.imm 0).toNat - h.lo (op.input 0), ?_, ?_, fun _ => by omega⟩
      · simp only [hpos, if_false]
        rw [himm, Int.toNat_natCast, Nat.cast_sub hlo]
      · unfold Hull.len
        omega

lemma Kernels.hasEffect_slice (K : Kernels U V S W) (start : ℤ) :
    K.hasEffect ⟨.slice, 0, [start], none⟩ = false := by
  simp [Kernels.hasEffect, Opcode.isEffectful]

/-- A slice runs, and leaves the cells of its window. -/
lemma call_slice [Zero V] (hK : K.Slices) {b : Binding} {op : Op U} {start : ℕ} {s : ℕ} {m : Arena V}
    (hcall : op.call = ⟨.slice, 0, [(start : ℤ)], none⟩) (hfits : start + b.len op.out ≤ b.len s)
    (w : W) : ∃ r, K.call b op [b.read m s] w = .ok (r, w) ∧
      ∀ e < b.len op.out, r.out e = m (b.home s) (start + e) := by
  obtain ⟨r, hr, hout⟩ := hK.forward start (b.len op.out) ((op.out2.map b.len).getD 0) (b.read m s)
    (by simpa [Binding.read] using hfits)
  refine ⟨r, ?_, fun e he => ?_⟩
  · simp only [Kernels.call, hcall, K.hasEffect_slice]
    rw [hr]
    rfl
  · have hlt : start + e < b.len s := by omega
    rw [hout e he]
    simp [Binding.read, hlt]

/-- A window read finds the same cells. -/
lemma SweepFrom.window [Zero V] (hst : SweepFrom g h σ τ) (hc : ChildHull g fills h)
    (hg : g.SharesPrimals) (hK : K.Slices) (hop : op ∈ g.ops) (hcached : op.cached = false)
    (hw : op.isWindowRead = true) : StepFrom K g h op σ τ := by
  have hins := Op.ins_of_isWindowRead hw
  obtain ⟨hout2, hvariant, hoc⟩ := Op.facts_of_isWindowRead hw
  have hread := hc.reads op hop (op.input 0) (by rw [hins]; exact List.mem_singleton.2 rfl)
  obtain ⟨start, hidata, hfits, hstart⟩ := hc.rebase_window hop hw
  have hout : g.pinned op.out = true := Graph.pinned_of_mem_outs hop (by simp)
  have hhome : g.home op.out = op.out := hg.own op hop hcached op.out (by simp)
  have hcached' : (g.rebase h op).cached = false := by rw [Graph.rebase_cached, hcached]
  have hoc' : (g.rebase h op).opcode = op.opcode := by rw [Graph.rebase_eq]
  have hinput : (g.rebase h op).input 0 = op.input 0 := by
    rw [Op.input, Graph.rebase_ins]
    rfl
  have hcell : ∀ e < g.len op.out,
      τ.mem (g.home (op.input 0)) (start + e) =
        σ.mem (g.home (op.input 0)) ((op.imm 0).toNat + e) := by
    intro e he
    rw [hst.cells.home hc hg (by omega), ← hstart (by omega), Nat.add_assoc]
  rcases hoc with hi | hsl
  · have hone := hread.element hw hi
    have hσ : op.routed g.bind σ.mem = some (Function.update (σ.mem (g.home op.out)) 0
        (σ.mem (g.home (op.input 0)) (op.imm 0).toNat)) := Op.routed_index hi g.bind σ.mem
    have hτ := Op.routed_index (hoc'.trans hi) (g.compact h).bind τ.mem
    rw [Graph.compact_bind_home, hinput, Graph.rebase_out] at hτ
    apply hst.step_ran hop (hst.cells.update hc hout (u := Function.update
      (σ.mem (g.home op.out)) 0 (σ.mem (g.home (op.input 0)) (op.imm 0).toNat)) ?_)
      (c := none) (.inl rfl)
    · rw [forwardOp_ran_routed hcached hσ]
      change Except.ok (ranStep _ op σ (Function.update σ.mem (g.home op.out) _) _ _) = _
      rw [hhome]
    · rw [forwardOp_ran_routed hcached' hτ, Graph.compact_bind_home, Graph.rebase_out, hhome,
        hst.world]
    · intro e he
      have he0 : e = 0 := by omega
      subst he0
      have hstart' : ((g.rebase h op).imm 0).toNat = start := by simp [Op.imm, hidata]
      rw [Function.update_self, Function.update_self, hstart']
      simpa using hcell 0 he
  · have hcallOp : op.call = ⟨.slice, 0, [((op.imm 0).toNat : ℤ)], none⟩ := by
      rw [Op.call, hsl, hvariant, hread.idata hw, hc.payload op hop hw]
    have hcallOp' : (g.rebase h op).call = ⟨.slice, 0, [(start : ℤ)], none⟩ := by
      rw [Op.call, hidata, Graph.rebase_eq, hsl, hvariant, hc.payload op hop hw]
    have hr : op.opcode.isRouted = false := by rw [hsl]; rfl
    have hlenOut : (g.compact h).bind.len op.out = g.len op.out := by
      rw [Graph.bind_len, Graph.compact_len hc, Graph.Whole.len (hc.pinned _ hout)]
    obtain ⟨r, hr1, hr2⟩ := call_slice (b := g.bind) (s := op.input 0) (m := σ.mem) hK hcallOp
      (hread.fits hw) σ.world
    obtain ⟨r', hr1', hr2'⟩ := call_slice (b := (g.compact h).bind) (s := op.input 0) (m := τ.mem)
      hK hcallOp' (by
        rw [Graph.rebase_out, hlenOut, Graph.bind_len, Graph.compact_len hc]
        exact hfits) σ.world
    rw [Graph.rebase_out, hlenOut, Graph.compact_bind_home] at hr2'
    have hout2' : (g.rebase h op).out2 = none := by rw [Graph.rebase_eq, hout2]
    apply hst.step_ran hop (hst.cells.update hc hout (u := r.out) (v := r'.out) ?_)
      (c := some r.scratch) (d := some r'.scratch) (.inr ⟨hw, hsl⟩)
    · rw [forwardOp_ran_kernel hcached hr, hins, List.map_singleton, hr1, Except.map]
      simp only [Op.store, hout2]
      change Except.ok (ranStep _ op σ (Function.update σ.mem (g.home op.out) _) _ _) = _
      rw [hhome]
    · rw [forwardOp_ran_kernel hcached' (by rw [hoc', hr]), Graph.rebase_ins, hins,
        List.map_singleton, hst.world, hr1', Except.map]
      simp only [Op.store, hout2']
      rw [Graph.compact_bind_home, Graph.rebase_out, hhome]
    · intro e he
      rw [hr2 e he, hr2' e he]
      exact hcell e he

end Step

/-! ## Whole sweeps -/

/-- What the reads of a graph need: stores and element reads stay inside their buffers. -/
def Graph.ReadsFit (g : Graph U) : Prop :=
  ∀ op ∈ g.ops, op.isWindowRead = false → op.InBounds g.len

/-- The logs of two sweeps that come from each other. -/
inductive LogFrom : List (Op U) → List (LogEntry V S) → List (LogEntry V S) → Prop
  | nil (ops : List (Op U)) : LogFrom ops [] []
  | cons {op : Op U} {ops : List (Op U)} {o o' : LogEntry V S} {os os' : List (LogEntry V S)}
      (h : EntryFrom op o o') (hs : LogFrom ops os os') : LogFrom (op :: ops) (o :: os) (o' :: os')

section Sweep

variable [Zero V] {K : Kernels U V S W} {g : Graph U} {fills : Fills V} {h : Hull}

theorem SweepFrom.step {σ τ : SweepState V S W} {op : Op U} (hst : SweepFrom g h σ τ)
    (hc : ChildHull g fills h) (hg : g.SharesPrimals) (hK : K.Slices) (hfit : g.ReadsFit)
    (hop : op ∈ g.ops) : StepFrom K g h op σ τ := by
  cases hcached : op.cached with
  | true => exact hst.cached hg hop hcached
  | false =>
    cases hw : op.isWindowRead with
    | true => exact hst.window hc hg hK hop hcached hw
    | false => exact hst.whole hc hg hop hcached hw (hfit op hop hw)

/-- The sweeps of a graph and of its compacted graph. -/
structure OutcomeFrom (g : Graph U) (h : Hull) (ops : List (Op U))
    (r r' : Outcome (SweepState V S W) (LogEntry V S) String) : Prop where
  error : r'.error = r.error
  log : LogFrom ops r.log r'.log
  state : SweepFrom g h r.state r'.state

theorem OutcomeFrom.run (hc : ChildHull g fills h) (hg : g.SharesPrimals) (hK : K.Slices)
    (hfit : g.ReadsFit) {ops : List (Op U)} (hops : ∀ op ∈ ops, op ∈ g.ops)
    {σ τ : SweepState V S W} (hst : SweepFrom g h σ τ) :
    OutcomeFrom g h ops ((forwardMachine K g.bind).run ops σ)
      ((forwardMachine K (g.compact h).bind).run (ops.map (g.rebase h)) τ) := by
  induction ops generalizing σ τ with
  | nil => exact ⟨rfl, .nil [], hst⟩
  | cons op ops ih =>
    rw [List.map_cons]
    rcases hst.step hc hg hK hfit (hops op (List.mem_cons_self ..)) with
      ⟨e, hσ, hτ⟩ | ⟨σ', o, τ', o', hσ, hτ, hst', hentry⟩
    · rw [Machine.run_cons_error (M := forwardMachine K g.bind) hσ,
        Machine.run_cons_error (M := forwardMachine K (g.compact h).bind) hτ]
      exact ⟨rfl, .nil _, hst⟩
    · have hrest := ih (fun o ho => hops o (List.mem_cons_of_mem _ ho)) hst'
      rw [Machine.run_cons_ok (M := forwardMachine K g.bind) hσ,
        Machine.run_cons_ok (M := forwardMachine K (g.compact h).bind) hτ]
      exact ⟨hrest.error, .cons hentry hrest.log, hrest.state⟩

theorem OutcomeFrom.forward (hc : ChildHull g fills h) (hg : g.SharesPrimals) (hK : K.Slices)
    (hfit : g.ReadsFit) {m m' : Arena V} (hm : CellsFrom h m m') (w : W) :
    OutcomeFrom g h g.ops (g.forward K m w) ((g.compact h).forward K m' w) :=
  OutcomeFrom.run hc hg hK hfit (fun _ hop => hop) ⟨hm, rfl, fun _ => .inl rfl⟩

end Sweep

end Stanli
