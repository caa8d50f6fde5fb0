import Stanli.Program.Contributions
import Stanli.Program.Visited

/-!
# The backward is reverse mode

Along a run the adjoint cells hold, for every register that has been written, the sum of the adjoints
of the registers that share its cell (`cells_step`); at the start the live-ins have their cells for
themselves.  Where no differentiated extremum reaches a live-out, the backward leaves out nothing that
the adjoint of an active register depends on (`kept_eq_path`).
-/

namespace Stanli

open Program

namespace IslandProg

variable {V E S : Type*} [Field V] {R : Registry} {p : IslandProg V} {keep : Bool}
  {es : List Emitted} {M : StanMath V E S} {k : ℕ} {I : Instr}

/-! ## What has been written -/

/-- A register is a live-in or has been written by one of the visited instructions. -/
def Ready (p : IslandProg V) (vs : List ℕ) (r : ℕ) : Prop :=
  p.Defined (fun r => p.isLiveIn r = true) vs r

/-- The outputs of every `CALL` are disjoint from its inputs. -/
def CallsApart (p : IslandProg V) : Prop :=
  ∀ (k : ℕ) (I : Instr) (call : Call), p.code[k]? = some I → p.callOf I = some call →
    ∀ s ∈ call.ins, ∀ r ∈ s.regs, r ∉ call.out.regs

/-- The scratch of every `CALL` is its own: no live-in, no output of the call, and written by nothing
else. -/
def ScratchPrivate (p : IslandProg V) : Prop :=
  ∀ (k : ℕ) (I : Instr) (call : Call), p.code[k]? = some I → p.callOf I = some call →
    ∀ r ∈ call.scratch.regs, p.isLiveIn r = false ∧ r ∉ call.out.regs ∧
      ∀ (j : ℕ) (J : Instr), p.code[j]? = some J → r ∈ p.writes J → j = k

section Decidable

omit [Field V]

lemma forall_code_iff {P : ℕ → Instr → Prop} :
    (∀ k I, p.code[k]? = some I → P k I) ↔ ∀ e ∈ p.code.zipIdx, P e.2 e.1 :=
  ⟨fun h e he => h e.2 e.1 (List.mem_zipIdx_iff_getElem?.1 he),
    fun h k I hI => h (I, k) (List.mk_mem_zipIdx_iff_getElem?.2 hI)⟩

lemma forall_call_iff {P : ℕ → Call → Prop} :
    (∀ k I call, p.code[k]? = some I → p.callOf I = some call → P k call) ↔
      ∀ e ∈ p.code.zipIdx, ∀ call ∈ p.callOf e.1, P e.2 call := by
  rw [← forall_code_iff (P := fun k I => ∀ call ∈ p.callOf I, P k call)]
  exact ⟨fun h k I hI call hcall => h k I call hI hcall, fun h k I call hI hcall => h k I hI call hcall⟩

instance : Decidable p.CallsApart := decidable_of_iff' _ forall_call_iff

instance : Decidable p.ScratchPrivate :=
  decidable_of_iff' (∀ e ∈ p.code.zipIdx, ∀ call ∈ p.callOf e.1, ∀ r ∈ call.scratch.regs,
    p.isLiveIn r = false ∧ r ∉ call.out.regs ∧ ∀ f ∈ p.code.zipIdx, r ∈ p.writes f.1 → f.2 = e.2) <| by
    simp only [ScratchPrivate, forall_code_iff (P := fun j J => _ ∈ p.writes J → j = _)]
    exact forall_call_iff

end Decidable

omit [Field V] in
/-- A register that has been written lies in the file. -/
lemma Ready.lt (hacc : p.accepts R = true) {vs : List ℕ} {r : ℕ} (h : p.Ready vs r) :
    r < p.nRegs := by
  rcases h with hlive | ⟨j, -, J, hJ, hr⟩
  · obtain ⟨li, hli, hr⟩ := List.any_eq_true.1 hlive
    simp only [accepts, Bool.and_eq_true, List.all_eq_true] at hacc
    have := inRange_iff.1 (hacc.1.1.1.1.2 li hli)
    have := Span.mem_regs.1 (of_decide_eq_true hr)
    simp only at this
    omega
  · exact (checked_of_accepts hacc hJ).writes r (mem_writes_of_defines hr)

omit [Field V] in
/-- The private scratch of a call never counts as written. -/
lemma ScratchPrivate.not_ready (h : p.ScratchPrivate) {call : Call} (hI : p.code[k]? = some I)
    (hcall : p.callOf I = some call) {r : ℕ} (hr : r ∈ call.scratch.regs) (vs : List ℕ) :
    ¬p.Ready vs r := by
  obtain ⟨hlive, hout, hown⟩ := h k I call hI hcall r hr
  rintro (hl | ⟨j, -, J, hJ, hj⟩)
  · simp [hlive] at hl
  · obtain rfl := hown j J hJ (mem_writes_of_defines hj)
    obtain rfl : I = J := Option.some.inj (hI.symm.trans hJ)
    obtain ⟨hcode, hget⟩ := code_of_callOf hcall
    rw [defines, if_pos hcode, hget] at hj
    exact hout hj

omit [Field V] in
/-- What an instruction writes without defining it never counts as written. -/
lemma not_ready_of_writes (hs : p.ScratchPrivate) (hch : p.Checked R k I) (hI : p.code[k]? = some I)
    {r : ℕ} (hw : r ∈ p.writes I) (hd : r ∉ p.defines I) (vs : List ℕ) : ¬p.Ready vs r := by
  by_cases hc : I.code = .call
  · obtain ⟨call, hget, -⟩ := hch.call hc
    have hof : p.callOf I = some call := by rw [callOf, if_pos hc, hget]
    rw [writes, if_pos hc, hget, List.mem_append] at hw
    rw [defines, if_pos hc, hget] at hd
    exact hs.not_ready hI hof (hw.resolve_left hd) vs
  · rw [writes, if_neg hc] at hw
    rw [defines, if_neg hc] at hd
    exact absurd hw hd

section Cells

variable (hd : Differentiated R p keep es)

include hd

/-- Another register with the cell of what an instruction writes has not been written behind it. -/
lemma not_ready_of_cell (hI : p.code[k]? = some I) (hal : p.aliasable R I k = false) {w r : ℕ}
    (hw : w ∈ p.writes I) (hr : r < p.nRegs) (hcell : p.adjCell R r = p.adjCell R w) (hne : r ≠ w)
    {vs : List ℕ} (hvs : ∀ v ∈ vs, v ≤ k) : ¬p.Ready vs r := by
  have hroot := (adjCell_inj hr ((hd.checked hI).writes w hw)).1 hcell
  exact (writtenBehind_of_root (fun i J hJ => hd.checked hJ) hI hal hw hroot hne).not_defined hvs

/-- The registers an instruction reads have cells apart from what it writes. -/
lemma cellsApart_of_ready (hI : p.code[k]? = some I) (hal : p.aliasable R I k = false)
    {vs : List ℕ} (hvs : ∀ v ∈ vs, v < k) (hreads : ∀ r ∈ p.readRegs R I, p.Ready vs r) :
    CellsApart R p I := by
  intro r hr w hw hcell
  by_contra hne
  exact not_ready_of_cell hd hI hal (mem_writes_of_defines hw) ((hreads r hr).lt hd.accepts) hcell
    hne (fun v hv => (hvs v hv).le) (hreads r hr)

/-- An adjoint instruction emitted for no call does to the cells what reverse mode does to the
registers. -/
lemma backs_of_emit_plain (hR : M.toRegistry = R) {e : Emitted} {J : AdjInstr}
    (hI : p.code[k]? = some I) (hc : I.code ≠ .call) (he : es[k]? = some e) (hJ : e.adj = some J)
    {s s' : File V S} (hex : p.exec M I s = .ok s') {val : ℕ → V}
    (hval : Holds p e k s.reg s'.reg val) {vs : List ℕ} (hvs : ∀ v ∈ vs, v < k)
    (hreads : ∀ r ∈ p.readRegs R I, p.Ready vs r) :
    p.aliasable R I k = false ∧
      Backs R p M (p.assemble R keep es).toProgram k I J s.reg s'.reg val := by
  have hch := hd.checked hI
  obtain ⟨hal, hprod, hof⟩ := adjOf_of_emit hd hI he hJ hc hex hval
  have hcells := cellsApart_of_ready hd hI hal hvs hreads
  have hsilent : I.code ≠ .jz ∧ I.code ≠ .jmp ∧ I.code ≠ .reject := by
    have hlen : I.outputLen ≠ 0 := by
      intro hzero
      simp [producesAdjoint, hc, hal, hzero] at hprod
    refine ⟨?_, ?_, ?_⟩ <;> intro hcode <;>
      simp [Instr.outputLen, hcode, Code.has, Code.flags] at hlen
  refine ⟨hal, ?_⟩
  cases hch.plain.kind with
  | scalar h =>
    by_cases hel : I.code.elementwise = true
    · exact hof.backs_elementwise hel (fun hdiv => exec_div hdiv hex) _
    · exact hof.backs_onlyClears _ (Or.inl (by simpa [Code.isScalar, hel] using h))
  | const h => exact hof.backs_onlyClears _ (Or.inr (Or.inl h))
  | fill h => exact hof.backs_onlyClears _ (Or.inr (Or.inr (Or.inl h)))
  | constr h => exact hof.backs_onlyClears _ (Or.inr (Or.inr (Or.inr (Or.inl h))))
  | extremaRange h => exact hof.backs_onlyClears _ (Or.inr (Or.inr (Or.inr (Or.inr h))))
  | mov h => exact hof.backs_mov h _
  | movr h => exact hof.backs_movr h hch hcells _
  | dynIndex h => exact hof.backs_dynIndex h (exec_dynIndex hch h hex) _
  | logRange h => exact hof.backs_logRange h hch hcells _
  | expRange h => exact hof.backs_expRange h hch hcells _
  | dot h => exact hof.backs_dot h _
  | lseRange h => exact hof.backs_lseRange h _
  | softmax h => exact hof.backs_softmax h hch hcells _
  | density h => exact hof.backs_density h hR _
  | range h =>
    exact hof.backs_range h (exec_range h hex) hch hcells
      (fun hdiv i hi => exec_rangeDiv hch h hdiv hex hi) _
  | jz h => exact absurd h hsilent.1
  | jmp h => exact absurd h hsilent.2.1
  | reject h => exact absurd h hsilent.2.2
  | call h => exact absurd h hc

/-- An emitted adjoint instruction does to the cells what reverse mode does to the registers. -/
lemma backs_of_emit (hM : M.HonestKernels) (hR : M.toRegistry = R) (hca : p.CallsApart)
    (hs : p.ScratchPrivate) {e : Emitted} {J : AdjInstr} (hI : p.code[k]? = some I)
    (he : es[k]? = some e) (hJ : e.adj = some J) {s s' : File V S} (hex : p.exec M I s = .ok s')
    {val : ℕ → V} (hval : Holds p e k s.reg s'.reg val) {vs : List ℕ} (hvs : ∀ v ∈ vs, v < k)
    (hreads : ∀ r ∈ p.readRegs R I, p.Ready vs r) :
    p.aliasable R I k = false ∧
      Backs R p M (p.assemble R keep es).toProgram k I J s.reg s'.reg val := by
  by_cases hc : I.code = .call
  · have hch := hd.checked hI
    obtain ⟨call, hget, -, hback, -⟩ := hch.call hc
    have hof : p.callOf I = some call := by rw [callOf, if_pos hc, hget]
    have hal : p.aliasable R I k = false := by simp [aliasable, hc]
    have hins : ∀ s₀ ∈ call.ins, ∀ r ∈ s₀.regs, s'.reg r = s.reg r := by
      intro s₀ hs₀ r hr
      refine exec_frame hch.plain hex fun hw => ?_
      rw [writes, if_pos hc, hget, List.mem_append] at hw
      rcases hw with hw | hw
      · exact hca k I call hI hof s₀ hs₀ r hr hw
      · exact hs.not_ready hI hof hw vs (hreads r (mem_readRegs_of_call hc hget hs₀ hr))
    have hscratch : ∀ r ∈ call.scratch.regs, p.lastWrite r ≤ k := by
      intro r hr
      rcases lastWrite_spec p r with hneg | ⟨j, J', hJ', hw, hlast⟩
      · omega
      · have := (hs k I call hI hof r hr).2.2 j J' hJ' hw
        omega
    obtain ⟨bound, hadj, hq, hbound⟩ := callOf_of_emit hd hI he hof hval hins hscratch
    obtain rfl := Option.some.inj (hJ.symm.trans hadj)
    exact ⟨hal, hbound.backs hof hM hR hback (cellsApart_of_ready hd hI hal hvs hreads)
      (hca k I call hI hof) hq⟩
  · exact backs_of_emit_plain hd hR hI hc he hJ hex hval hvs hreads

end Cells

/-! ## One instruction, in the cells -/

/-- The pullback of an instruction as the backward computes it. -/
def keptPullback (R : Registry) (p : IslandProg V) (M : StanMath V E S) (k : ℕ) (I : Instr)
    (x y seed : ℕ → V) : ℕ → V := fun r =>
  (if r ∈ p.writes I then 0 else seed r) + gather (p.keptPulls R M k I x y seed) r

/-- The adjoint file holds the adjoints of the registers: those that have not been written have none,
and the cell of one that has holds the sum over its sharers. -/
structure CellsHold (R : Registry) (p : IslandProg V) (vs : List ℕ) (seed adj : ℕ → V) : Prop where
  zero : ∀ r < p.nRegs, ¬p.Ready vs r → seed r = 0
  cell : ∀ r < p.nRegs, p.Ready vs r →
    adj (p.adjCell R r) = fiberSum (p.adjCell R) p.nRegs seed (p.adjCell R r)

omit [Field V] in
lemma Ready.append {vs : List ℕ} {r v : ℕ} (h : p.Ready vs r) : p.Ready (vs ++ [v]) r :=
  Defined.append h

omit [Field V] in
lemma ready_of_defines (hI : p.code[k]? = some I) {r : ℕ} (hr : r ∈ p.defines I) (vs : List ℕ) :
    p.Ready (vs ++ [k]) r := Or.inr ⟨k, by simp, I, hI, hr⟩

section Step

variable (hd : Differentiated R p keep es) (hR : M.toRegistry = R)

include hd hR

/-- Registers that have not been written in front of an instruction have no adjoint there. -/
lemma keptPullback_eq_zero (hI : p.code[k]? = some I) {s s' : File V S}
    (hex : p.exec M I s = .ok s') {vs : List ℕ} (hreads : ∀ r ∈ p.readRegs R I, p.Ready vs r)
    {seed : ℕ → V} (hzero : ∀ r < p.nRegs, ¬p.Ready (vs ++ [k]) r → seed r = 0) {r : ℕ}
    (hr : r < p.nRegs) (hn : ¬p.Ready vs r) :
    p.keptPullback R M k I s.reg s'.reg seed r = 0 := by
  have hch := hd.checked hI
  rw [keptPullback, gather_eq_zero, add_zero]
  · split
    · rfl
    · rename_i hw
      refine hzero r hr ?_
      rintro (hlive | ⟨j, hj, J, hJ, hdef⟩)
      · exact hn (Or.inl hlive)
      · rcases List.mem_append.1 hj with hj | hj
        · exact hn (Or.inr ⟨j, hj, J, hJ, hdef⟩)
        · obtain rfl := List.mem_singleton.1 hj
          obtain rfl : I = J := Option.some.inj (hI.symm.trans hJ)
          exact hw (mem_writes_of_defines hdef)
  · rintro e he rfl
    exact hn (hreads _ (pulled_reads hch hR hex (mem_of_mem_keptPulls he)).1)

omit hR in
/-- Behind an instruction that shares no cells, what it wrote has its cells for itself. -/
lemma fiberSum_of_defines (hI : p.code[k]? = some I) (hal : p.aliasable R I k = false)
    {vs : List ℕ} (hvs : ∀ v ∈ vs, v < k) {seed : ℕ → V}
    (hzero : ∀ r < p.nRegs, ¬p.Ready (vs ++ [k]) r → seed r = 0) {w : ℕ} (hw : w ∈ p.defines I) :
    fiberSum (p.adjCell R) p.nRegs seed (p.adjCell R w) = seed w := by
  have hwrites := mem_writes_of_defines hw
  refine fiberSum_eq ((hd.checked hI).writes w hwrites) fun r hr hcell hne => hzero r hr ?_
  refine not_ready_of_cell hd hI hal hwrites hr hcell hne fun v hv => ?_
  rcases List.mem_append.1 hv with hv | hv
  · exact (hvs v hv).le
  · exact (List.mem_singleton.1 hv).le

omit hR in
/-- Taking away the adjoints of what an instruction wrote clears the cells. -/
lemma fiberSum_clear (hs : p.ScratchPrivate) (hI : p.code[k]? = some I)
    (hal : p.aliasable R I k = false) {vs : List ℕ} (hvs : ∀ v ∈ vs, v < k) {seed : ℕ → V}
    (hzero : ∀ r < p.nRegs, ¬p.Ready (vs ++ [k]) r → seed r = 0) (c : ℕ) :
    fiberSum (p.adjCell R) p.nRegs (fun r => if r ∈ p.writes I then 0 else seed r) c =
      clearCells (p.adjCell R) (p.defines I) (fiberSum (p.adjCell R) p.nRegs seed) c := by
  unfold clearCells
  split
  · rename_i h
    obtain ⟨w, hw, rfl⟩ := h
    have hwrites := mem_writes_of_defines hw
    refine fiberSum_eq_zero fun r hr hcell => ?_
    split
    · rfl
    · rename_i hnw
      refine hzero r hr (not_ready_of_cell hd hI hal hwrites hr hcell ?_ fun v hv => ?_)
      · rintro rfl
        exact hnw hwrites
      · rcases List.mem_append.1 hv with hv | hv
        · exact (hvs v hv).le
        · exact (List.mem_singleton.1 hv).le
  · rename_i h
    refine fiberSum_congr fun r hr hcell => ?_
    split
    · rename_i hw
      -- A register that is written without being defined is the scratch of a call.
      have hndef : r ∉ p.defines I := fun hdef => h ⟨r, hdef, hcell⟩
      exact (hzero r hr (not_ready_of_writes hs (hd.checked hI) hI hw hndef _)).symm
    · rfl

/-- The adjoints in front of an instruction, added up in the cells. -/
lemma fiberSum_keptPullback (hI : p.code[k]? = some I) {s s' : File V S}
    (hex : p.exec M I s = .ok s') (seed : ℕ → V) (c : ℕ) :
    fiberSum (p.adjCell R) p.nRegs (p.keptPullback R M k I s.reg s'.reg seed) c =
      fiberSum (p.adjCell R) p.nRegs (fun r => if r ∈ p.writes I then 0 else seed r) c +
        gather (cellsOf (p.adjCell R) (p.keptPulls R M k I s.reg s'.reg seed)) c := by
  rw [show p.keptPullback R M k I s.reg s'.reg seed = fun r =>
      (if r ∈ p.writes I then 0 else seed r) + gather (p.keptPulls R M k I s.reg s'.reg seed) r from
    rfl, fiberSum_add, fiberSum_gather, cellsOf]
  exact fun e he => (pulled_reads (hd.checked hI) hR hex (mem_of_mem_keptPulls he)).2

/-- An instruction with an adjoint instruction. -/
lemma cells_emitted (hM : M.HonestKernels) (hca : p.CallsApart) (hs : p.ScratchPrivate) {e : Emitted}
    {J : AdjInstr} (hI : p.code[k]? = some I) (he : es[k]? = some e) (hJ : e.adj = some J)
    {s s' : File V S} (hex : p.exec M I s = .ok s') {val : ℕ → V}
    (hval : Holds p e k s.reg s'.reg val) {vs : List ℕ} (hvs : ∀ v ∈ vs, v < k)
    (hreads : ∀ r ∈ p.readRegs R I, p.Ready vs r) {seed adj : ℕ → V}
    (h : CellsHold R p (vs ++ [k]) seed adj) :
    CellsHold R p vs (p.keptPullback R M k I s.reg s'.reg seed)
      (adjStep M (p.assemble R keep es).toProgram val J adj) := by
  obtain ⟨hal, hbacks⟩ := backs_of_emit hd hM hR hca hs hI he hJ hex hval hvs hreads
  have hch := hd.checked hI
  have hseed : ∀ w ∈ p.defines I, adj (p.adjCell R w) = seed w := by
    intro w hw
    rw [h.cell w (hch.writes w (mem_writes_of_defines hw)) (ready_of_defines hI hw vs)]
    exact fiberSum_of_defines hd hI hal hvs h.zero hw
  refine ⟨fun r hr hn => keptPullback_eq_zero hd hR hI hex hreads h.zero hr hn, fun r hr hready => ?_⟩
  rw [hbacks, fiberSum_keptPullback hd hR hI hex, fiberSum_clear hd hs hI hal hvs h.zero,
    keptPulls_congr hch hR hex hseed]
  congr 1
  unfold clearCells
  split
  · rfl
  · exact h.cell r hr hready.append

/-- A copy that shares cells. -/
lemma cells_shared (hI : p.code[k]? = some I) (hal : p.aliasable R I k = true) {s s' : File V S}
    (hex : p.exec M I s = .ok s') {vs : List ℕ} (hreads : ∀ r ∈ p.readRegs R I, p.Ready vs r)
    {seed adj : ℕ → V} (h : CellsHold R p (vs ++ [k]) seed adj) :
    CellsHold R p vs (p.keptPullback R M k I s.reg s'.reg seed) adj := by
  obtain ⟨hs, -⟩ := (sharesCells_iff hI).1 hal
  have hcall : I.code ≠ .call := by rcases hs.copy with hc | hc <;> simp [hc]
  have hden : I.code ≠ .density := by rcases hs.copy with hc | hc <;> simp [hc]
  have hext : I.code ≠ .extremaRange := by rcases hs.copy with hc | hc <;> simp [hc]
  have hjac : I.jacobian M s.reg s'.reg = (List.range (copyLen I)).map fun j => (j, I.a + j, 1) := by
    rcases hs.copy with hc | hc <;> simp [Instr.jacobian, hc, copyLen]
  have hcell : ∀ j < copyLen I, p.adjCell R (I.a + j) = p.adjCell R (I.dst + j) := by
    intro j hj
    rw [adjCell, adjCell, adjRoot_copy (fun i J hJ => hd.checked hJ) hI hal hj]
  refine ⟨fun r hr hn => keptPullback_eq_zero hd hR hI hex hreads h.zero hr hn, fun r hr hready => ?_⟩
  rw [h.cell r hr hready.append, fiberSum_keptPullback hd hR hI hex]
  -- What moves to the source stays in the cell.
  have hmoved : gather (cellsOf (p.adjCell R) (p.keptPulls R M k I s.reg s'.reg seed))
      (p.adjCell R r) = fiberSum (p.adjCell R) p.nRegs
        (fun r => if r ∈ p.writes I then seed r else 0) (p.adjCell R r) := by
    have hrun : (fun r => if r ∈ p.writes I then seed r else 0) =
        gather ((List.range (copyLen I)).map fun j => (I.dst + j, seed (I.dst + j))) := by
      funext r
      rw [gather_run]
      refine if_congr ?_ rfl rfl
      rw [mem_writes_copy hs.copy]
      constructor
      · rintro ⟨j, hj, rfl⟩
        omega
      · intro h
        exact ⟨r - I.dst, by omega, by omega⟩
    rw [hrun, fiberSum_gather, cellsOf_keptPulls hcall hden hext, hjac, List.map_map, List.map_map]
    · congr 1
      refine List.map_congr_left fun j hj => ?_
      simp [hcell j (List.mem_range.1 hj)]
    · intro e he
      obtain ⟨j, hj, rfl⟩ := List.mem_map.1 he
      have := hs.dst
      rw [List.mem_range] at hj
      simp only
      omega
  rw [hmoved, ← fiberSum_add]
  refine fiberSum_congr fun r' _ _ => ?_
  split <;> simp

omit hd hR in
/-- An instruction whose rule only clears contributes nothing. -/
lemma keptPulls_of_onlyClears (hch : p.Checked R k I) {s s' : File V S}
    (hex : p.exec M I s = .ok s') (h : onlyClears I = true) (seed : ℕ → V) :
    p.keptPulls R M k I s.reg s'.reg seed = [] := by
  have hjac : I.code ≠ .call → I.code ≠ .density → I.code ≠ .extremaRange →
      I.jacobian M s.reg s'.reg = [] → p.keptPulls R M k I s.reg s'.reg seed = [] := by
    intro hcall hden hext hnil
    rw [keptPulls, if_neg hext, if_neg hden, pulled, if_neg hcall, hnil, List.map_nil]
  have hno : I.code ≠ .extremaRange → I.code.isDiscrete = false → I.rule.has .noInputs = true := by
    intro hext hdis
    simpa [onlyClears, hext, hdis] using h
  cases hch.plain.kind with
  | scalar hc =>
    by_cases hel : I.code.elementwise = true
    · obtain ⟨hcall, hden, hext, -, -, hrule, -⟩ := elementwise_instr hel
      have hdis : I.code.isDiscrete = false := by
        cases hcode : I.code <;> rw [hcode] at hel <;> first | rfl | exact absurd hel (by decide)
      have := hno hext hdis
      rw [hrule, Code.elementwise.noInputs hel] at this
      exact absurd this (by simp)
    · have hdis : I.code.isDiscrete = true := by simpa [Code.isScalar, hel] using hc
      cases hcode : I.code <;> rw [hcode] at hdis <;> first
        | exact absurd hdis (by decide)
        | exact hjac (by simp [hcode]) (by simp [hcode]) (by simp [hcode])
            (by simp [Instr.jacobian, hcode, Code.elementwise])
  | const hc | fill hc | constr hc | jz hc | jmp hc | reject hc =>
    exact hjac (by simp [hc]) (by simp [hc]) (by simp [hc])
      (by simp [Instr.jacobian, hc, Code.elementwise])
  | extremaRange hc => exact if_pos hc
  | range hc =>
    have := hno (by simp [hc]) (by simp [hc, Code.isDiscrete])
    rw [Instr.rule, if_pos hc, Code.elementwise.noInputs (exec_range hc hex)] at this
    exact absurd this (by simp)
  | mov hc | movr hc | dynIndex hc | logRange hc | expRange hc | dot hc | lseRange hc | softmax hc
    | density hc | call hc =>
    have := hno (by simp [hc]) (by simp [hc, Code.isDiscrete])
    simp [Instr.rule, hc, Code.has, Code.flags] at this

/-- An instruction whose clear is dropped. -/
lemma cells_dropped (hI : p.code[k]? = some I) (hcall : I.code ≠ .call)
    (hal : p.aliasable R I k = false) (hprod : p.producesAdjoint R keep I k = false)
    {s s' : File V S} (hex : p.exec M I s = .ok s') {vs : List ℕ} (hvs : ∀ v ∈ vs, v < k)
    (hreads : ∀ r ∈ p.readRegs R I, p.Ready vs r) {seed adj : ℕ → V}
    (h : CellsHold R p (vs ++ [k]) seed adj) :
    CellsHold R p vs (p.keptPullback R M k I s.reg s'.reg seed) adj := by
  have hch := hd.checked hI
  simp only [producesAdjoint, hcall, hal, if_false, Bool.false_eq_true] at hprod
  have hnone : p.keptPulls R M k I s.reg s'.reg seed = [] ∧
      ∀ w ∈ p.writes I, ¬p.Ready vs w := by
    split at hprod
    · rename_i hzero
      constructor
      · refine List.eq_nil_iff_forall_not_mem.2 fun e he => ?_
        have he := mem_of_mem_keptPulls he
        rw [pulled, if_neg hcall] at he
        obtain ⟨d, hd, -⟩ := List.mem_map.1 he
        have := (jacobian_spec hch hR hex hd).1
        omega
      · intro w hw
        rw [mem_writes hcall] at hw
        omega
    · split at hprod
      · rename_i honly
        simp only [Bool.and_eq_true, Bool.not_eq_true', Bool.not_eq_false', List.all_eq_true,
          List.mem_range, decide_eq_true_eq] at honly hprod
        refine ⟨keptPulls_of_onlyClears hch hex honly.2 seed, fun w hw => ?_⟩
        rw [mem_writes hcall] at hw
        obtain ⟨hfirst, hno⟩ := hprod (w - I.dst) (by omega)
        rw [Nat.add_sub_cancel' hw.1] at hfirst hno
        have hlive : p.isLiveIn w = false := by
          rw [noAlias, Bool.or_eq_false_iff] at hno
          exact hno.1
        rintro (hl | ⟨j, hj, J, hJ, hdef⟩)
        · simp [hlive] at hl
        · have := firstWrite_le hJ (mem_writes_of_defines hdef)
          have := hvs j hj
          omega
      · simp at hprod
  obtain ⟨hnil, hfresh⟩ := hnone
  refine ⟨fun r hr hn => keptPullback_eq_zero hd hR hI hex hreads h.zero hr hn, fun r hr hready => ?_⟩
  rw [h.cell r hr hready.append, fiberSum_keptPullback hd hR hI hex, hnil]
  simp only [cellsOf, List.map_nil, gather_nil, add_zero]
  refine fiberSum_congr fun r' hr' hcell => ?_
  rw [if_neg]
  intro hw
  rcases eq_or_ne r r' with rfl | hne
  · exact hfresh r hw hready
  · exact not_ready_of_cell hd hI hal hw hr hcell.symm hne (fun v hv => (hvs v hv).le) hready

/-- One visited instruction, backwards. -/
lemma cells_step (hM : M.HonestKernels) (hca : p.CallsApart) (hs : p.ScratchPrivate) {e : Emitted}
    (hI : p.code[k]? = some I) (he : es[k]? = some e) {s s' : File V S}
    (hex : p.exec M I s = .ok s') {val : ℕ → V} (hval : Holds p e k s.reg s'.reg val) {vs : List ℕ}
    (hvs : ∀ v ∈ vs, v < k) (hreads : ∀ r ∈ p.readRegs R I, p.Ready vs r) {seed adj : ℕ → V}
    (h : CellsHold R p (vs ++ [k]) seed adj) :
    CellsHold R p vs (p.keptPullback R M k I s.reg s'.reg seed) (e.adj.toList.foldr
      (fun J adj => adjStep M (p.assemble R keep es).toProgram val J adj) adj) := by
  obtain ⟨e', he', hemit⟩ := hd.emit hI
  obtain rfl : e = e' := Option.some.inj (he.symm.trans he')
  cases hJ : e.adj with
  | some J => exact cells_emitted hd hR hM hca hs hI he hJ hex hval hvs hreads h
  | none =>
    have hcall : I.code ≠ .call := by
      intro hc
      obtain ⟨call, hget, -⟩ := (hd.checked hI).call hc
      have hof : p.callOf I = some call := by rw [callOf, if_pos hc, hget]
      unfold emit at hemit
      simp only [hof, emitCall, Option.bind_eq_bind, Option.bind_eq_some_iff, Option.pure_def,
        Option.some.injEq] at hemit
      obtain ⟨adjIn, -, adjOut, -, rfl⟩ := hemit
      simp at hJ
    rcases emit_cases (callOf_eq_none hcall) hemit with ⟨hal, -⟩ | ⟨hal, hprod, -⟩ |
      ⟨-, -, dst, cells, -, -, -, -, hadj⟩
    · exact cells_shared hd hR hI hal hex hreads h
    · exact cells_dropped hd hR hI hcall hal hprod hex hvs hreads h
    · simp [hJ] at hadj

end Step

/-! ## A whole run -/

/-- Reverse mode along an executed path as the backward computes it. -/
def keptAdjoint (R : Registry) (p : IslandProg V) (M : StanMath V E S) (vs : List (ℕ × File V S))
    (seed : ℕ → V) : ℕ → V :=
  vs.foldr (fun v seed =>
    match p.code[v.1]? with
    | none => seed
    | some I =>
      match p.exec M I v.2 with
      | .ok s' => p.keptPullback R M v.1 I v.2.reg s'.reg seed
      | .error _ => seed) seed

/-- The visits of a run that does not fail: in order, each on a control path, and each executed. -/
lemma visits_of_run (hd : Differentiated R p keep es) {s t : File V S} {vs : List (ℕ × File V S)}
    {nx : ℕ} (hrun : (p.machine M).sweep 0 p.code 0 s = (vs, .ok (nx, t)))
    {pre post : List (ℕ × File V S)} {v : ℕ × File V S} (hvs : vs = pre ++ v :: post) :
    (∀ u ∈ pre.map Prod.fst, u < v.1) ∧ p.ControlPath (pre.map Prod.fst) v.1 ∧
      ∃ I s', p.code[v.1]? = some I ∧ p.exec M I v.2 = .ok s' := by
  obtain ⟨hsorted, hexec⟩ := Branching.sweep_visits hrun
  obtain ⟨pc, -, hpath⟩ := controlPath_of_sweep (forward_of_accepts hd.accepts M) hrun
  obtain ⟨-, I, s', hI, hex⟩ := hexec v (by simp [hvs])
  rw [hvs, List.map_append, List.map_cons] at hsorted hpath
  refine ⟨fun u hu => ?_, hpath.before rfl, I, s', by simpa using hI, hex⟩
  exact (List.pairwise_append.1 hsorted).2.2 u hu v.1 (List.mem_cons_self ..)

/-- What each visited instruction carries from behind it to in front of it, the whole backward
carries from the end of the run to its start. -/
theorem visited_induction (hd : Differentiated R p keep es) {s t : File V S}
    {vs : List (ℕ × File V S)} {nx : ℕ}
    (hrun : (p.machine M).sweep 0 p.code 0 s = (vs, .ok (nx, t))) {val : ℕ → V}
    {Q : List (ℕ × File V S) → List (ℕ × File V S) → (ℕ → V) → Prop}
    (step : ∀ pre v post I e s' adj, vs = pre ++ v :: post → (∀ u ∈ pre.map Prod.fst, u < v.1) →
      p.ControlPath (pre.map Prod.fst) v.1 → p.code[v.1]? = some I → es[v.1]? = some e →
      p.exec M I v.2 = .ok s' → Q (pre ++ [v]) post adj →
      Q pre (v :: post) (e.adj.toList.foldr
        (fun J adj => adjStep M (p.assemble R keep es).toProgram val J adj) adj))
    {adj : ℕ → V} (h : Q vs [] adj) : Q [] vs ((visitedAdj es vs).foldr
      (fun J adj => adjStep M (p.assemble R keep es).toProgram val J adj) adj) := by
  have key : ∀ (post pre : List (ℕ × File V S)), vs = pre ++ post →
      Q pre post ((visitedAdj es post).foldr
        (fun J adj => adjStep M (p.assemble R keep es).toProgram val J adj) adj) := by
    intro post
    induction post with
    | nil =>
      intro pre hvs
      rw [List.append_nil] at hvs
      exact hvs ▸ h
    | cons v post ih =>
      intro pre hvs
      obtain ⟨hbefore, hpath, I, s', hI, hex⟩ := visits_of_run hd hrun hvs
      obtain ⟨e, he, -⟩ := hd.emit hI
      have hadj : visitedAdj es (v :: post) = e.adj.toList ++ visitedAdj es post := by
        unfold visitedAdj
        rw [List.filterMap_cons, he, Option.bind_some]
        cases e.adj <;> rfl
      rw [hadj, List.foldr_append]
      exact step pre v post I e s' _ hvs hbefore hpath hI he hex (ih (pre ++ [v]) (by simp [hvs]))
  exact key vs [] rfl

/-- Along a run the adjoint cells hold the adjoints of the registers. -/
theorem cells_run (hd : Differentiated R p keep es) (hR : M.toRegistry = R) (hM : M.HonestKernels)
    (hca : p.CallsApart) (hs : p.ScratchPrivate) (hinit : InitialisesReads R p) {s t : File V S}
    {vs : List (ℕ × File V S)} {nx : ℕ}
    (hrun : (p.machine M).sweep 0 p.code 0 s = (vs, .ok (nx, t))) {val : ℕ → V}
    (hval : ∀ v ∈ vs, ∀ I e s', p.code[v.1]? = some I → es[v.1]? = some e →
      p.exec M I v.2 = .ok s' → Holds p e v.1 v.2.reg s'.reg val) {seed adj : ℕ → V}
    (h : CellsHold R p (vs.map Prod.fst) seed adj) :
    CellsHold R p [] (p.keptAdjoint R M vs seed) ((visitedAdj es vs).foldr
      (fun J adj => adjStep M (p.assemble R keep es).toProgram val J adj) adj) := by
  refine visited_induction hd hrun (Q := fun pre post adj =>
    CellsHold R p (pre.map Prod.fst) (p.keptAdjoint R M post seed) adj)
    (fun pre v post I e s' adj hvs hbefore hpath hI he hex hnext => ?_) h
  rw [List.map_append] at hnext
  have hkept : p.keptAdjoint R M (v :: post) seed =
      p.keptPullback R M v.1 I v.2.reg s'.reg (p.keptAdjoint R M post seed) := by
    simp only [keptAdjoint, List.foldr_cons, hI, hex]
  rw [hkept]
  exact cells_step hd hR hM hca hs hI he hex (hval v (by simp [hvs]) I e s' hI he hex) hbefore
    (hinit.reads _ _ I hpath hI) hnext

omit [Field V] in
/-- A live-in is its own root. -/
lemma adjRoot_liveIn (hch : ∀ i I, p.code[i]? = some I → p.Checked R i I) {r : ℕ}
    (hr : p.isLiveIn r = true) : p.adjRoot R r = r := by
  rcases (rootStep_adjRoot hch).1 r with h | ⟨i, I, j, -, hI, hj, rfl, -, -⟩
  · exact h
  · have := hI.private_ j hj
    rw [noAlias, Bool.or_eq_false_iff] at this
    exact absurd (hr.symm.trans this.1) (by simp)

/-- In front of the code a live-in has its cell for itself. -/
lemma CellsHold.liveIn (hd : Differentiated R p keep es) {seed adj : ℕ → V}
    (h : CellsHold R p [] seed adj) {r : ℕ} (hr : p.isLiveIn r = true) :
    adj (p.adjCell R r) = seed r := by
  have hready : p.Ready [] r := Or.inl hr
  have hlt := hready.lt hd.accepts
  have hch : ∀ i I, p.code[i]? = some I → p.Checked R i I := fun i I hI => hd.checked hI
  rw [h.cell r hlt hready]
  refine fiberSum_eq hlt fun r' hr' hcell hne => h.zero r' hr' ?_
  have hroot := (adjCell_inj hr' hlt).1 hcell
  rw [adjRoot_liveIn hch hr] at hroot
  rintro (hlive | ⟨j, hj, -⟩)
  · simp [(firstWrite_of_adjRoot hch hroot hne).1] at hlive
  · simp at hj

end IslandProg

end Stanli
