import Stanli.InputRanges.CompactForward

/-!
# The reverse sweep of a compacted graph

The adjoint of a cell of the compacted graph is the adjoint of the cell it came from, and the cells
outside the hulls receive nothing.
-/

namespace Stanli

variable {U V S W : Type*} [AddCommMonoid V]

/-- The adjoints of a compacted graph and of the graph it came from. -/
structure AdjointsFrom (g : Graph U) (h : Hull) (a a' : Arena V) : Prop where
  whole : ∀ s, g.Whole h s → a' s = a s
  cells : ∀ s e, e < h.len s → a' s e = a s (h.lo s + e)
  outside : ∀ s e, e < g.len s → (e < h.lo s ∨ h.hi s ≤ e) → a s e = 0

section Step

variable {K : Kernels U V S W} {g : Graph U} {fills : Fills V} {h : Hull} {op : Op U}
  {final final' a a' : Arena V} {entry entry' : LogEntry V S}

/-- An op that reads whole inputs. -/
lemma AdjointsFrom.whole_step (ha : AdjointsFrom g h a a') (hc : ChildHull g fills h)
    (hg : g.SharesPrimals) (hfit : g.ReadsFit) (hfinal : CellsFrom h final final')
    (hentry : EntryFrom op entry entry') (hop : op ∈ g.ops) (hw : op.isWindowRead = false) :
    AdjointsFrom g h (backwardOp K g.bind final op entry a)
      (backwardOp K (g.compact h).bind final' (g.rebase h op) entry' a') := by
  have hscratch : entry'.scratch = entry.scratch := by
    rcases hentry with hs | hs
    · exact hs
    · exact absurd hs.1 (by simp [hw])
  have hin : ∀ t ∈ op.ins, g.Whole h t := fun t ht => (hc.reads op hop t ht).whole hw
  have hout : ∀ t ∈ op.outs, g.Whole h t := fun t ht => hc.pinned t (Graph.pinned_of_mem_outs hop ht)
  have hlen : ∀ t, g.Whole h t → (g.compact h).bind.len t = g.bind.len t := fun t ht => by
    rw [Graph.bind_len, Graph.compact_len hc, ht.len, Graph.bind_len]
  have hrebase : g.rebase h op = op := Graph.rebase_of_not_window hw
  have hsame : ∀ s e, s ∈ op.ins → backwardOp K (g.compact h).bind final' op entry' a' s e =
      backwardOp K g.bind final op entry a s e := by
    intro s e hs
    exact backwardOp_map (f := id) rfl (by simp) rfl rfl (hfit op hop hw)
      (fun t ht => hlen t (hin t ht)) (hlen _ (hout _ (by simp)))
      (fun t ht => hfinal.read hc hg (hin t ht)) (fun t ht => hfinal.read hc hg (hout t ht))
      (fun t _ => Graph.compact_active t) hscratch (fun t ht => ha.whole t (hout t ht))
      (fun t _ => Iff.rfl) (congrFun (ha.whole s (hin s hs)) e)
  have hkeep : ∀ (b : Binding) (m : Arena V) (x : LogEntry V S) (y : Arena V) (s e : ℕ), s ∉ op.ins →
      backwardOp K b m op x y s e = y s e := fun b m x y s e hs =>
    backwardOp_of_notMem hs (fun hip => absurd (hc.copying op hop) (by simp [hip])) e
  rw [hrebase]
  constructor
  · intro s hs
    funext e
    by_cases hmem : s ∈ op.ins
    · exact hsame s e hmem
    · rw [hkeep _ _ _ _ _ _ hmem, hkeep _ _ _ _ _ _ hmem, ha.whole s hs]
  · intro s e he
    by_cases hmem : s ∈ op.ins
    · rw [hsame s e hmem, (hin s hmem).1, Nat.zero_add]
    · rw [hkeep _ _ _ _ _ _ hmem, hkeep _ _ _ _ _ _ hmem, ha.cells s e he]
  · intro s e he hoff
    by_cases hmem : s ∈ op.ins
    · obtain ⟨hlo, hhi⟩ := hin s hmem
      omega
    · rw [hkeep _ _ _ _ _ _ hmem, ha.outside s e he hoff]

/-- A window read hands the adjoint of its output to the cells of the window. -/
lemma backwardOp_window (hK : K.Slices) {b : Binding} {start : ℕ} (hw : op.isWindowRead = true)
    (hidata : op.idata = [(start : ℤ)]) (hudata : op.udata = none)
    (hone : op.opcode = .index → b.len op.out = 1) (s e : ℕ) :
    backwardOp K b final op entry a s e =
      a s e + if b.active s = true ∧ s = op.input 0 ∧ start ≤ e ∧ e < start + b.len op.out then
        a op.out (e - start) else 0 := by
  obtain ⟨hout2, hvariant, hoc⟩ := Op.facts_of_isWindowRead hw
  have hins := Op.ins_of_isWindowRead hw
  have himm : (op.imm 0).toNat = start := by simp [Op.imm, hidata]
  have hsingle : ∀ inc : ℕ → ℕ → V, accumulate b op.ins inc a s e =
      if b.active (op.input 0) = true ∧ op.input 0 = s then a s e + inc 0 e else a s e := by
    intro inc
    rw [accumulate_apply, hins]
    rfl
  have hfinish : ∀ x : V, x = (if start ≤ e ∧ e < start + b.len op.out then
        a op.out (e - start) else 0) →
      (if b.active (op.input 0) = true ∧ op.input 0 = s then a s e + x else a s e) =
        a s e + if b.active s = true ∧ s = op.input 0 ∧ start ≤ e ∧ e < start + b.len op.out then
          a op.out (e - start) else 0 := by
    rintro x rfl
    by_cases hs : s = op.input 0
    · subst hs
      by_cases hact : b.active (op.input 0) = true
      · simp [hact]
      · simp [hact]
    · rw [if_neg fun hx => hs hx.2.symm, if_neg fun hx => hs hx.2.1, add_zero]
  rcases hoc with hi | hsl
  · rw [backwardOp_routed (.inl hi), hsingle]
    apply hfinish
    have h1 := hone hi
    rw [Op.routedBack, himm]
    simp only [hi, if_true, true_and]
    by_cases he : e = start
    · subst he
      rw [if_pos rfl, if_pos ⟨Nat.le_refl _, by omega⟩, Nat.sub_self]
    · rw [if_neg he, if_neg (by omega)]
  · have hcall : op.call = ⟨.slice, 0, [(start : ℤ)], none⟩ := by
      rw [Op.call, hsl, hvariant, hidata, hudata]
    rw [backwardOp_kernel (by rw [hsl]; rfl), hsingle]
    apply hfinish
    rw [hcall, hK.backward]
    by_cases hle : start ≤ e
    · by_cases hlt : e < start + b.len op.out
      · rw [if_pos hle, if_pos ⟨hle, hlt⟩]
        simp [show e - start < b.len op.out by omega]
      · rw [if_pos hle, if_neg (fun hx => hlt hx.2)]
        simp [show ¬ e - start < b.len op.out by omega]
    · rw [if_neg hle, if_neg fun hx => hle hx.1]

/-- A window read. -/
lemma AdjointsFrom.window_step (ha : AdjointsFrom g h a a') (hc : ChildHull g fills h)
    (hK : K.Slices) (hop : op ∈ g.ops) (hw : op.isWindowRead = true) :
    AdjointsFrom g h (backwardOp K g.bind final op entry a)
      (backwardOp K (g.compact h).bind final' (g.rebase h op) entry' a') := by
  have hread := hc.reads op hop (op.input 0) (by
    rw [Op.ins_of_isWindowRead hw]
    exact List.mem_singleton.2 rfl)
  obtain ⟨start, hidata, hfits, hstart⟩ := hc.rebase_window hop hw
  have hout : g.Whole h op.out := hc.pinned _ (Graph.pinned_of_mem_outs hop (by simp))
  have hlenOut : (g.compact h).bind.len op.out = g.len op.out := by
    rw [Graph.bind_len, Graph.compact_len hc, hout.len]
  have hinput : (g.rebase h op).input 0 = op.input 0 := by
    rw [Op.input, Graph.rebase_ins]
    rfl
  have hw' : (g.rebase h op).isWindowRead = true := by
    rw [Graph.rebase_eq]
    exact hw
  have hleft : ∀ s e, backwardOp K g.bind final op entry a s e = a s e +
      if g.bind.active s = true ∧ s = op.input 0 ∧ (op.imm 0).toNat ≤ e ∧
        e < (op.imm 0).toNat + g.len op.out then a op.out (e - (op.imm 0).toNat) else 0 :=
    backwardOp_window hK hw (hread.idata hw) (hc.payload op hop hw) (hread.element hw)
  have hright : ∀ s e, backwardOp K (g.compact h).bind final' (g.rebase h op) entry' a' s e =
      a' s e + if g.bind.active s = true ∧ s = op.input 0 ∧ start ≤ e ∧ e < start + g.len op.out then
        a op.out (e - start) else 0 := by
    intro s e
    rw [backwardOp_window hK hw' hidata (by rw [Graph.rebase_eq]; exact hc.payload op hop hw)
      (by rw [Graph.rebase_out, hlenOut, Graph.rebase_eq]; exact hread.element hw),
      Graph.rebase_out, hlenOut, hinput, Graph.compact_active, ha.whole _ hout]
  have hshift : ∀ e, (if g.bind.active (op.input 0) = true ∧ op.input 0 = op.input 0 ∧ start ≤ e ∧
        e < start + g.len op.out then a op.out (e - start) else 0) =
      if g.bind.active (op.input 0) = true ∧ op.input 0 = op.input 0 ∧
        (op.imm 0).toNat ≤ h.lo (op.input 0) + e ∧
        h.lo (op.input 0) + e < (op.imm 0).toNat + g.len op.out then
          a op.out (h.lo (op.input 0) + e - (op.imm 0).toNat) else 0 := by
    intro e
    by_cases hpos : 0 < g.len op.out
    · simp only [← hstart hpos, Nat.add_sub_add_left, Nat.add_assoc, Nat.add_le_add_iff_left,
        Nat.add_lt_add_iff_left]
    · rw [if_neg (by omega), if_neg (by omega)]
  constructor
  · intro s hs
    funext e
    rw [hleft, hright, ha.whole s hs]
    congr 1
    by_cases hsin : s = op.input 0
    · subst hsin
      rw [hshift, hs.1, Nat.zero_add]
    · rw [if_neg fun hx => hsin hx.2.1, if_neg fun hx => hsin hx.2.1]
  · intro s e he
    rw [hleft, hright, ha.cells s e he]
    congr 1
    by_cases hsin : s = op.input 0
    · subst hsin
      exact hshift e
    · rw [if_neg fun hx => hsin hx.2.1, if_neg fun hx => hsin hx.2.1]
  · intro s e he hoff
    rw [hleft, ha.outside s e he hoff, zero_add, if_neg]
    rintro ⟨-, rfl, hge, hlt⟩
    have := hread.window hw (by omega)
    omega

/-- One op back. -/
theorem AdjointsFrom.step (ha : AdjointsFrom g h a a') (hc : ChildHull g fills h)
    (hg : g.SharesPrimals) (hK : K.Slices) (hfit : g.ReadsFit) (hfinal : CellsFrom h final final')
    (hentry : EntryFrom op entry entry') (hop : op ∈ g.ops) :
    AdjointsFrom g h (backwardOp K g.bind final op entry a)
      (backwardOp K (g.compact h).bind final' (g.rebase h op) entry' a') := by
  cases hw : op.isWindowRead with
  | true => exact ha.window_step hc hK hop hw
  | false => exact ha.whole_step hc hg hfit hfinal hentry hop hw

end Step

/-! ## Whole sweeps -/

section Sweep

variable {K : Kernels U V S W} {g : Graph U} {fills : Fills V} {h : Hull}

theorem AdjointsFrom.run (hc : ChildHull g fills h) (hg : g.SharesPrimals) (hK : K.Slices)
    (hfit : g.ReadsFit) {final final' : Arena V} (hfinal : CellsFrom h final final')
    {ops : List (Op U)} (hops : ∀ op ∈ ops, op ∈ g.ops) {os os' : List (LogEntry V S)}
    (hlog : LogFrom ops os os') {a a' : Arena V} (ha : AdjointsFrom g h a a') :
    AdjointsFrom g h (backRun (backwardOp K g.bind final) ops os a)
      (backRun (backwardOp K (g.compact h).bind final') (ops.map (g.rebase h)) os' a') := by
  induction hlog with
  | nil ops =>
    have hnil : ∀ (b : Binding) (m : Arena V) (is : List (Op U)) (x : Arena V),
        backRun (backwardOp K b m) is [] x = x := by
      intro b m is x
      cases is <;> rfl
    rw [hnil, hnil]
    exact ha
  | cons hentry _ ih =>
    rw [List.map_cons, backRun_cons, backRun_cons]
    exact (ih fun o ho => hops o (List.mem_cons_of_mem _ ho)).step hc hg hK hfit hfinal hentry
      (hops _ (List.mem_cons_self ..))

/-- The reverse sweeps from any seed. -/
theorem AdjointsFrom.reverse (hc : ChildHull g fills h) (hg : g.SharesPrimals) (hK : K.Slices)
    (hfit : g.ReadsFit) {r r' : Outcome (SweepState V S W) (LogEntry V S) String}
    (hr : OutcomeFrom g h g.ops r r') (seed : V) :
    AdjointsFrom g h (g.reverse K r seed) ((g.compact h).reverse K r' seed) := by
  apply AdjointsFrom.run hc hg hK hfit hr.state.cells (fun _ hop => hop) hr.log
  have hpinned : ∀ s, g.resultSlot = some s → g.Whole h s := fun s hs =>
    hc.pinned s (by simp [Graph.pinned, hs])
  constructor
  · exact fun s _ => rfl
  · intro s e _
    change (if g.resultSlot = some s ∧ e = 0 then seed else 0) = _
    by_cases hs : g.resultSlot = some s
    · rw [(hpinned s hs).1, Nat.zero_add]
    · rw [if_neg fun hx => hs hx.1, if_neg fun hx => hs hx.1]
  · intro s e he hoff
    apply if_neg
    rintro ⟨hs, -⟩
    obtain ⟨hlo, hhi⟩ := hpinned s hs
    omega

end Sweep

end Stanli
