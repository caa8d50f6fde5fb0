import Stanli.InputRanges.Imports
import Stanli.Passes.ElideStoresSound

/-!
# Compacted graphs evaluate alike

`compact_imports` narrows the slots of a graph to the hulls of their windows (`CompactedTo`), and the
compacted graph, bound through the import records and the offsets, computes the same value and hands
the parent the same adjoints (`CompactsSound`).
-/

namespace Stanli

variable {U V S W : Type*}

/-! ## The narrowing -/

/-- `c` is the graph narrowed to the hulls of its windows. -/
structure Graph.CompactedTo (g : Graph U) (fills : Fills V) (c : ImportState U V) : Prop where
  isParam : c.graph.slots.map Slot.isParam = g.slots.map Slot.isParam
  result : c.graph.resultSlot = g.resultSlot
  /-- A slot read only through windows is the hull of its windows, behind its offset. -/
  hull : ∀ s, g.OnlyWindows s → g.IsWindowHull s (c.sourceOffsets.getD s 0)
    (c.sourceOffsets.getD s 0 + c.graph.len s)
  rest : ∀ s, ¬ g.OnlyWindows s → c.sourceOffsets.getD s 0 = 0 ∧ c.graph.len s = g.len s
  /-- Only the start of a window moves, by the offset of its slot. -/
  ops : List.Forall₂ (fun op op' =>
    op' = { op with idata := op'.idata } ∧ (op.isWindowRead = false → op'.idata = op.idata) ∧
      (op.isWindowRead = true → ∃ start : ℕ, op'.idata = [(start : ℤ)] ∧
        start + g.len op.out ≤ c.graph.len (op.input 0) ∧
        (0 < g.len op.out →
          c.sourceOffsets.getD (op.input 0) 0 + start = (op.imm 0).toNat))) g.ops c.graph.ops
  fills : c.fills = (fills.filter fun f => decide (0 < c.graph.len f.1)).map fun f =>
    (f.1, (f.2.drop (c.sourceOffsets.getD f.1 0)).take (c.graph.len f.1))
  /-- Each parameter slot that is not empty has an import, in slot order. -/
  imports : c.imports =
    ((List.range g.slots.length).filter fun s => g.isParam s && decide (0 < c.graph.len s)).map
      fun s => ⟨g.paramOffset s + c.sourceOffsets.getD s 0, c.graph.paramOffset s, c.graph.len s,
        false⟩

/-! ## The evaluations -/

/-- The evaluation `r'` of the compacted graph fails like the evaluation `r` of the graph, leaves the
effects and the result the same, and from the same seed hands the parent the same adjoints through the
imports; a cell that no window covers receives none. -/
structure Graph.CompactsSound [AddCommMonoid V] (K : Kernels U V S W) (g : Graph U) (c : ImportState U V)
    (seed : V) (r r' : Outcome (SweepState V S W) (LogEntry V S) String) : Prop where
  error : r'.error = r.error
  world : r'.state.world = r.state.world
  value : ∀ s, g.resultSlot = some s →
    c.graph.bind.read r'.state.mem s = g.bind.read r.state.mem s
  adjoint : ∀ i, scatterBack c.imports (c.graph.packed (c.graph.reverse K r' seed)) i =
    (g.packed (g.reverse K r seed)).getD i 0
  unread : ∀ s, g.OnlyWindows s → ∀ e, (∀ start stop, g.HasWindow s start stop →
    ¬ (start ≤ e ∧ e < stop)) → g.reverse K r seed s e = 0

section Bound

variable {g : Graph U} {fills : Fills V} {h : Hull}

lemma compact_slots (g : Graph U) (h : Hull) : (g.compact h).slots = cutSlots h 0 g.slots := rfl

lemma Graph.getElem?_of_isParam {s : ℕ} (hs : g.isParam s = true) :
    ∃ slot, g.slots[s]? = some slot ∧ slot.isParam = true ∧ slot.len = g.len s := by
  unfold Graph.isParam at hs
  cases hslot : g.slots[s]? with
  | none => simp [hslot] at hs
  | some slot => exact ⟨slot, rfl, by simpa [hslot] using hs, by simp [Graph.len, hslot]⟩

lemma ChildHull.hullsFit (hc : ChildHull g fills h) : HullsFit h 0 g.slots := by
  intro k slot hk
  have hle := hc.le k
  have hlen : g.len k = slot.len := by simp [Graph.len, hk]
  rw [Nat.zero_add]
  omega

/-- The fills of the narrowed slots hold the cells they were cut out of. -/
lemma cellsFrom_cutFills (hc : ChildHull g fills h) {fills' : Fills V} (hfills : ∀ f ∈ fills', f ∈ fills)
    {m m' : Arena V} (hm : CellsFrom h m m') :
    CellsFrom h (Fills.apply fills' m) (Fills.apply (h.cutFills fills') m') := by
  induction fills' generalizing m m' with
  | nil => exact hm
  | cons f fills' ih =>
    have hrest := fun f' hf' => hfills f' (List.mem_cons_of_mem _ hf')
    have hlen := hc.fills f (hfills f (List.mem_cons_self ..))
    have hle := hc.le f.1
    change CellsFrom h (Fills.apply fills' (Function.update m f.1 fun e => f.2[e]?.getD (m f.1 e))) _
    by_cases hlt : h.lo f.1 < h.hi f.1
    · have hcut : h.cutFills (f :: fills') =
          (f.1, (f.2.take (h.hi f.1)).drop (h.lo f.1)) :: h.cutFills fills' := by
        simp [Hull.cutFills, hlt]
      rw [hcut]
      apply ih hrest
      intro s e he
      dsimp only
      by_cases hs : s = f.1
      · subst hs
        have hin : h.lo f.1 + e < h.hi f.1 := by
          unfold Hull.len at he
          omega
        rw [Function.update_self, Function.update_self, List.getElem?_drop, List.getElem?_take,
          if_pos hin, List.getElem?_eq_getElem (by omega)]
        rfl
      · rw [Function.update_of_ne hs, Function.update_of_ne hs]
        exact hm s e he
    · have hcut : h.cutFills (f :: fills') = h.cutFills fills' := by
        simp [Hull.cutFills, hlt]
      rw [hcut]
      apply ih hrest
      intro s e he
      have hs : s ≠ f.1 := by
        rintro rfl
        unfold Hull.len at he
        omega
      rw [Function.update_of_ne hs]
      exact hm s e he

variable [AddCommMonoid V]

/-- The compacted graph starts from the cells its slots were cut out of. -/
theorem cellsFrom_childArena (hc : ChildHull g fills h) (θ : List V) (data : Arena V) :
    CellsFrom h (g.childArena fills θ data)
      ((g.compact h).childArena (h.cutFills fills)
        (importedParams (Graph.importsFrom h 0 0 0 g.slots) θ)
        (importedData ((List.range g.slots.length).map h.lo) data)) := by
  intro s e he
  unfold Graph.childArena
  rw [Graph.compact_isParam]
  by_cases hs : g.isParam s = true
  · obtain ⟨slot, hslot, hparam, -⟩ := Graph.getElem?_of_isParam hs
    have hlt : e < h.len (0 + s) := by rwa [Nat.zero_add]
    have hcell := @getD_importedParams V _ h g.slots 0 0 0 θ s slot hslot hparam e hlt
    rw [Nat.zero_add, Nat.zero_add] at hcell
    rw [if_pos hs, if_pos hs, Graph.paramOffset, compact_slots, hcell, Graph.paramOffset,
      Nat.add_assoc]
  · rw [if_neg hs, if_neg hs]
    refine cellsFrom_cutFills hc (fun _ hf => hf) ?_ s e he
    intro t e' he'
    have ht : t < g.slots.length := by
      by_contra hge
      have hlen : g.len t = 0 := by simp [Graph.len, List.getElem?_eq_none (Nat.le_of_not_lt hge)]
      have := hc.le t
      unfold Hull.len at he'
      omega
    simp [importedData, ht]

/-- The parent receives the adjoints of its parameter vector. -/
theorem scatterBack_packed (hc : ChildHull g fills h) {a a' : Arena V} (ha : AdjointsFrom g h a a')
    (i : ℕ) :
    scatterBack (Graph.importsFrom h 0 0 0 g.slots) ((g.compact h).packed a') i =
      (g.packed a).getD i 0 := by
  rw [scatterBack, foldl_scatterImport a' (by rw [List.drop_zero]; rfl) hc.hullsFit,
    if_pos (Nat.zero_le i), zero_add, Nat.sub_zero, Graph.packed]
  congr 1
  apply packFrom_congr
  intro k slot hk e he
  have hlen : g.len k = slot.len := by simp [Graph.len, hk]
  rw [Nat.zero_add, spread]
  split
  · rename_i hin
    rw [ha.cells k (e - h.lo k) (by unfold Hull.len; omega), Nat.add_sub_cancel' hin.1]
  · rename_i hout
    exact (ha.outside k e (by omega) (by omega)).symm

/-- A cell that no window covers receives nothing. -/
theorem reverse_unread {K : Kernels U V S W} (hc : ChildHull g fills h) (hK : K.Slices) {s e : ℕ}
    (honly : g.OnlyWindows s)
    (hcell : ∀ start stop, g.HasWindow s start stop → ¬ (start ≤ e ∧ e < stop))
    (r : Outcome (SweepState V S W) (LogEntry V S) String) (seed : V) :
    g.reverse K r seed s e = 0 := by
  have key : ∀ (ops : List (Op U)) (os : List (LogEntry V S)) (a : Arena V),
      (∀ op ∈ ops, op ∈ g.ops) → a s e = 0 →
      backRun (backwardOp K g.bind r.state.mem) ops os a s e = 0 := by
    intro ops
    induction ops with
    | nil =>
      intro os a _ ha
      rw [backRun_nil]
      exact ha
    | cons op ops ih =>
      intro os a hops ha
      cases os with
      | nil => exact ha
      | cons o os =>
        have hop := hops op (List.mem_cons_self ..)
        have hrest := ih os a (fun o ho => hops o (List.mem_cons_of_mem _ ho)) ha
        rw [backRun_cons]
        by_cases hs : s ∈ op.ins
        · have hw := honly.2 op hop hs
          have hins := Op.ins_of_isWindowRead hw
          rw [hins, List.mem_singleton] at hs
          subst hs
          have hread := hc.reads op hop (op.input 0) (by rw [hins]; exact List.mem_singleton.2 rfl)
          rw [backwardOp_window hK hw (hread.idata hw) (hc.payload op hop hw) (hread.element hw),
            hrest, zero_add, if_neg]
          rintro ⟨-, -, hge, hlt⟩
          rw [Graph.bind_len] at hlt
          exact hcell _ _ ⟨op, hop, hw, by rw [hins]; exact List.mem_singleton.2 rfl, by omega, rfl,
            rfl⟩ ⟨hge, hlt⟩
        · rw [backwardOp_of_notMem hs fun hip => absurd (hc.copying op hop) (by simp [hip]), hrest]
  apply key _ _ _ fun _ hop => hop
  apply if_neg
  rintro ⟨hs, -⟩
  exact absurd honly.1 (by simp [Graph.pinned, hs])

end Bound

/-! ## The imports -/

/-- The import of a slot, where the slots before it have these sizes. -/
theorem importsFrom_eq {h : Hull} {s parent start : ℕ} {slots : List Slot} :
    Graph.importsFrom h s parent start slots =
      ((List.range slots.length).filter fun k =>
          ((slots[k]?).map Slot.isParam).getD false && decide (0 < h.len (s + k))).map
        fun k => ⟨parent + paramSize (slots.take k) + h.lo (s + k),
          start + paramSize ((cutSlots h s slots).take k), h.len (s + k), false⟩ := by
  induction slots generalizing s parent start with
  | nil => rfl
  | cons slot slots ih =>
    have hrest : ∀ (parent' start' : ℕ),
        parent' = parent + (if slot.isParam then slot.len else 0) →
        start' = start + (if slot.isParam then h.len s else 0) →
        Graph.importsFrom h (s + 1) parent' start' slots =
          (((List.range slots.length).map Nat.succ).filter fun k =>
            (((slot :: slots)[k]?).map Slot.isParam).getD false && decide (0 < h.len (s + k))).map
          fun k => ⟨parent + paramSize ((slot :: slots).take k) + h.lo (s + k),
            start + paramSize ((cutSlots h s (slot :: slots)).take k), h.len (s + k), false⟩ := by
      rintro parent' start' rfl rfl
      rw [ih, List.filter_map, List.map_map]
      have hpred : ((fun k => (((slot :: slots)[k]?).map Slot.isParam).getD false &&
          decide (0 < h.len (s + k))) ∘ Nat.succ) =
          fun k => ((slots[k]?).map Slot.isParam).getD false && decide (0 < h.len (s + 1 + k)) := by
        funext k
        rw [Function.comp_apply, show s + Nat.succ k = s + 1 + k by omega]
        rfl
      rw [hpred]
      apply List.map_congr_left
      intro k _
      rw [Function.comp_apply, show s + Nat.succ k = s + 1 + k by omega, cutSlots_cons,
        Nat.succ_eq_add_one, List.take_succ_cons, List.take_succ_cons, paramSize, paramSize,
        Nat.add_assoc parent, Nat.add_assoc start]
    rw [List.length_cons, List.range_succ_eq_map, List.filter_cons]
    cases hp : slot.isParam with
    | true =>
      rw [importsFrom_param hp, hrest _ _ (by rw [hp]; rfl) (by rw [hp]; rfl)]
      by_cases h0 : h.len s = 0
      · rw [if_pos h0, if_neg (by simp [h0]), List.nil_append]
      · rw [if_neg h0, if_pos (by simp [hp]; omega)]
        simp [paramSize]
    | false =>
      rw [importsFrom_data hp, hrest _ _ (by rw [hp]; rfl) (by rw [hp]; rfl),
        if_neg (by simp [hp])]

/-! ## The pass -/

section Pass

variable {g : Graph U} {fills : Fills V} {h : Hull}

/-- What `compact_imports` leaves of a graph with these hulls. -/
def Graph.compacted (g : Graph U) (fills : Fills V) (h : Hull) : ImportState U V where
  graph := g.compact h
  fills := h.cutFills fills
  imports := Graph.importsFrom h 0 0 0 g.slots
  sourceOffsets := (List.range g.slots.length).map h.lo
  refusal := defaultRefusal

theorem compactImports_eq (K : Kernels U V S W) (dynamicGeometry : Op U → Bool)
    (opcodeName : Opcode → String) (st : ImportState U V) :
    (∃ reason, compactImports K dynamicGeometry opcodeName st = (false, { st with refusal := reason })) ∨
      ∃ h, ChildHull st.graph st.fills h ∧
        compactImports K dynamicGeometry opcodeName st = (true, st.graph.compacted st.fills h) := by
  unfold compactImports
  cases hhull : childHull K dynamicGeometry opcodeName st.graph st.fills with
  | error reason => exact .inl ⟨reason, rfl⟩
  | ok h => exact .inr ⟨h, childHull_eq_ok hhull, rfl⟩

theorem ChildHull.getD_offsets (hc : ChildHull g fills h) (s : ℕ) :
    ((List.range g.slots.length).map h.lo).getD s 0 = h.lo s := by
  by_cases hs : s < g.slots.length
  · simp [hs]
  · have hlen : g.len s = 0 := by simp [Graph.len, List.getElem?_eq_none (Nat.le_of_not_lt hs)]
    have hle := hc.le s
    simp only [List.getD_eq_getElem?_getD, List.getElem?_map,
      List.getElem?_eq_none (show (List.range g.slots.length).length ≤ s by simpa using hs),
      Option.map_none, Option.getD_none]
    omega

theorem ChildHull.compactedTo (hc : ChildHull g fills h) :
    g.CompactedTo fills (g.compacted fills h) := by
  have hlen : ∀ s, (g.compact h).len s = h.len s := Graph.compact_len hc
  have hsum : ∀ s, h.lo s + h.len s = h.hi s := fun s => by
    have := hc.le s
    unfold Hull.len
    omega
  constructor
  · apply List.ext_getElem?
    intro i
    rw [List.getElem?_map, List.getElem?_map, Graph.compacted, Graph.compact_getElem?, Option.map_map]
    rfl
  · rfl
  · intro s honly
    rw [Graph.compacted, hc.getD_offsets, hlen, hsum]
    exact hc.hull s honly
  · intro s honly
    obtain ⟨hlo, hhi⟩ := hc.rest s honly
    rw [Graph.compacted, hc.getD_offsets, hlen]
    exact ⟨hlo, Graph.Whole.len ⟨hlo, hhi⟩⟩
  · rw [Graph.compacted, Graph.compact, List.forall₂_map_right_iff, List.forall₂_same]
    intro op hop
    refine ⟨Graph.rebase_eq op, fun hw => by rw [Graph.rebase_of_not_window hw], fun hw => ?_⟩
    obtain ⟨start, hidata, hfits, hstart⟩ := hc.rebase_window hop hw
    refine ⟨start, hidata, ?_, fun hpos => ?_⟩
    · change start + g.len op.out ≤ (g.compact h).len (op.input 0)
      rwa [hlen]
    · rw [hc.getD_offsets]
      exact hstart hpos
  · rw [Graph.compacted, Hull.cutFills]
    have hpred : (fun f : ℕ × List V => decide (h.lo f.1 < h.hi f.1)) =
        fun f => decide (0 < (g.compact h).len f.1) := by
      funext f
      rw [hlen, Hull.len, decide_eq_decide]
      omega
    rw [hpred]
    apply List.map_congr_left
    intro f _
    rw [hc.getD_offsets, hlen, List.drop_take]
    rfl
  · rw [Graph.compacted, importsFrom_eq]
    simp only [Nat.zero_add, hlen, hc.getD_offsets, Graph.paramOffset, compact_slots]
    rfl

theorem paramSize_append (slots slots' : List Slot) :
    paramSize (slots ++ slots') = paramSize slots + paramSize slots' := by
  induction slots with
  | nil => simp [paramSize]
  | cons slot slots ih => rw [List.cons_append, paramSize, paramSize, ih, Nat.add_assoc]

/-- The imports lie inside the parameter vector. -/
theorem ChildHull.importsFit (hc : ChildHull g fills h) :
    ImportsFit [(g.compacted fills h).imports] (paramSize g.slots) := by
  intro child hchild im him
  rw [List.mem_singleton.1 hchild, hc.compactedTo.imports] at him
  obtain ⟨s, hs, rfl⟩ := List.mem_map.1 him
  obtain ⟨-, hcond⟩ := List.mem_filter.1 hs
  rw [Bool.and_eq_true] at hcond
  obtain ⟨slot, hslot, hparam, hlen⟩ := Graph.getElem?_of_isParam hcond.1
  obtain ⟨hlt, hget⟩ := List.getElem?_eq_some_iff.1 hslot
  right
  have hsize : paramSize g.slots = g.paramOffset s + (slot.len + paramSize (g.slots.drop (s + 1))) := by
    conv_lhs => rw [← List.take_append_drop s g.slots, List.drop_eq_getElem_cons hlt, hget]
    rw [paramSize_append, paramSize, if_pos hparam]
    rfl
  have hle := hc.le s
  dsimp only [Graph.compacted]
  rw [hc.getD_offsets, Graph.compact_len hc, Hull.len, hsize, hlen]
  omega

theorem ChildHull.compactsSound [AddCommMonoid V] (hc : ChildHull g fills h) (K : Kernels U V S W)
    (hK : K.Slices) (hg : g.SharesPrimals) (hfit : g.ReadsFit) (θ : List V) (data : Arena V) (w : W)
    (seed : V) :
    g.CompactsSound K (g.compacted fills h) seed
      (g.forward K (g.childArena fills θ data) w)
      ((g.compacted fills h).graph.forward K
        ((g.compacted fills h).graph.childArena (g.compacted fills h).fills
          (importedParams (g.compacted fills h).imports θ)
          (importedData (g.compacted fills h).sourceOffsets data)) w) := by
  have hrun := OutcomeFrom.forward hc hg hK hfit (cellsFrom_childArena hc θ data) w
  constructor
  · exact hrun.error
  · exact hrun.state.world
  · intro s hs
    exact hrun.state.cells.read hc hg (hc.pinned s (by simp [Graph.pinned, hs]))
  · exact scatterBack_packed hc (AdjointsFrom.reverse hc hg hK hfit hrun seed)
  · intro s honly e hcell
    exact reverse_unread hc hK honly hcell _ seed

end Pass

/-- `compact_imports` narrows the slots of every graph it accepts to the hulls of their windows, and the
compacted graph evaluates alike from every parameter vector, binding of the data slots and seed; what it
refuses it leaves alone. `scatter_plan` visits the coordinates of the imports once each, in order, and
tells those that one import reads. -/
theorem compactImports_scatterPlan_correct [AddCommMonoid V] (K : Kernels U V S W) (hK : K.Slices)
    (dynamicGeometry : Op U → Bool) (opcodeName : Opcode → String) (st : ImportState U V)
    (hg : st.graph.SharesPrimals) (hfit : st.graph.ReadsFit) :
    ((compactImports K dynamicGeometry opcodeName st).1 = true →
      let c := (compactImports K dynamicGeometry opcodeName st).2
      st.graph.CompactedTo st.fills c ∧ ImportsFit [c.imports] (paramSize st.graph.slots) ∧
        ∀ (θ : List V) (data : Arena V) (w : W) (seed : V),
          st.graph.CompactsSound K c seed
            (st.graph.forward K (st.graph.childArena st.fills θ data) w)
            (c.graph.forward K (c.graph.childArena c.fills (importedParams c.imports θ)
              (importedData c.sourceOffsets data)) w)) ∧
    ((compactImports K dynamicGeometry opcodeName st).1 = false →
      let c := (compactImports K dynamicGeometry opcodeName st).2
      c.graph = st.graph ∧ c.fills = st.fills ∧ c.imports = st.imports) ∧
    ∀ (imports : List (List Import)) (parentSize : ℕ),
      (ImportsFit imports parentSize → ∃ plan, scatterPlan imports parentSize = some plan) ∧
        ∀ plan, scatterPlan imports parentSize = some plan → PlanExact imports plan := by
  refine ⟨fun hacc => ?_, fun hrefused => ?_, fun imports parentSize => ?_⟩
  · rcases compactImports_eq K dynamicGeometry opcodeName st with ⟨reason, heq⟩ | ⟨h, hc, heq⟩
    · rw [heq] at hacc
      cases hacc
    · rw [heq]
      exact ⟨hc.compactedTo, hc.importsFit, fun θ data w seed =>
        hc.compactsSound K hK hg hfit θ data w seed⟩
  · rcases compactImports_eq K dynamicGeometry opcodeName st with ⟨reason, heq⟩ | ⟨h, -, heq⟩
    · rw [heq]
      exact ⟨rfl, rfl, rfl⟩
    · rw [heq] at hrefused
      cases hrefused
  · obtain ⟨hsome, hspec⟩ := scatterPlan_spec imports parentSize
    exact ⟨hsome, fun plan hplan => (hspec plan hplan).2⟩

/-! ## A narrowed parameter -/

/-- The square of two of four parameters, beside two numbers that nothing reads. -/
def windowState : ImportState Unit ℤ where
  graph :=
    { slots := [⟨4, true⟩, ⟨2, false⟩, ⟨2, false⟩, ⟨2, false⟩]
      ops :=
        [{ opcode := .slice, out := 2, ins := [0], idata := [1] },
         { opcode := .square, out := 3, ins := [2] }]
      resultSlot := some 3 }
  fills := [(1, [5, 6])]
  imports := []
  sourceOffsets := []
  refusal := ""

theorem compactImports_windowState :
    (compactImports selectionKernels (fun _ => false) (fun _ => "") windowState).1 = true ∧
      (compactImports selectionKernels (fun _ => false) (fun _ => "") windowState).2.imports =
        [⟨1, 0, 2, false⟩] ∧
      ∀ (θ : List ℤ) (data : Arena ℤ) (seed : ℤ),
        let c := (compactImports selectionKernels (fun _ => false) (fun _ => "") windowState).2
        windowState.graph.CompactsSound selectionKernels c seed
          (windowState.graph.forward selectionKernels
            (windowState.graph.childArena windowState.fills θ data) ())
          (c.graph.forward selectionKernels (c.graph.childArena c.fills
            (importedParams c.imports θ) (importedData c.sourceOffsets data)) ()) := by
  have hown : windowState.graph.SharesPrimals := by
    constructor <;> simp [windowState, Graph.home, Op.cached]
  have hfit : windowState.graph.ReadsFit := by
    intro op hop hw
    rcases List.mem_pair.1 hop with rfl | rfl
    · exact absurd hw (by decide)
    · exact Op.inBounds_of_kernel rfl
  have hacc : (compactImports selectionKernels (fun _ => false) (fun _ => "") windowState).1 = true := by
    decide +kernel
  refine ⟨hacc, by decide +kernel, fun θ data seed => ?_⟩
  exact ((compactImports_scatterPlan_correct selectionKernels selectionKernels_slices
    (fun _ => false) (fun _ => "") windowState hown hfit).1 hacc).2.2 θ data () seed

end Stanli
