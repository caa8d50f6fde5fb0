import Stanli.Lowering.IslandInputsSound

/-!
# The island op between its inputs and its live-outs

`emitIsland_handsOver`: the ops `emitIsland` adds to a graph run the program on the registers that
direct descriptors would seed, and take its outputs apart into one slot for each live-out.
-/

namespace Stanli

open Program

variable {U V S W : Type*}

namespace Lowering

/-! ## The island op -/

section Extract

variable {K : Kernels U V S W} {b : Binding} {g : Graph U}

lemma extract_extends (island offset : ℕ) (lens : List ℕ) (g : Graph U) :
    g.slots <+: (extract island offset lens g).2.slots := by
  induction lens generalizing offset g with
  | nil => exact List.prefix_rfl
  | cons len lens ih =>
    have hstep : g.slots <+: (emitWindow island offset len g).graph.slots := List.prefix_append _ _
    exact hstep.trans (ih _ _)

lemma NoPrimal.extract (h : NoPrimal g) (island offset : ℕ) (lens : List ℕ) :
    NoPrimal (extract island offset lens g).2 := by
  induction lens generalizing offset g with
  | nil => exact h
  | cons len lens ih => exact ih (h.emitRaw _ _ _ _) _

/-- The extractions take the output apart. -/
lemma extract_spec (hK : MovesValues K) {island offset : ℕ} {lens : List ℕ}
    (hs : island < g.slots.length) (hfit : offset + lens.sum ≤ g.len island)
    (hb : Agrees b (extract island offset lens g).2) (m : Arena V) :
    ∃ m', Moves K b g (extract island offset lens g).2 m m' ∧
      (∀ s ∈ (extract island offset lens g).1, s < (extract island offset lens g).2.slots.length) ∧
      (extract island offset lens g).1.map (b.read m') =
        List.windowsFrom offset lens (b.read m island) := by
  induction lens generalizing offset g m with
  | nil => exact ⟨m, Moves.refl K b g m, by simp [extract], rfl⟩
  | cons len lens ih =>
    rw [List.sum_cons] at hfit
    obtain ⟨g1, hg1⟩ : ∃ g1, (emitWindow island offset len g).graph = g1 := ⟨_, rfl⟩
    have hg1s : g1.slots = g.slots ++ [⟨len, false⟩] := by rw [← hg1]; rfl
    have hpre : g.slots <+: g1.slots := by rw [hg1s]; exact List.prefix_append _ _
    have heq : extract island offset (len :: lens) g =
        (g.slots.length :: (extract island (offset + len) lens g1).1,
          (extract island (offset + len) lens g1).2) := by
      rw [← hg1]
      rfl
    rw [heq] at hb ⊢
    have hpre' := extract_extends island (offset + len) lens g1
    have hnew : g.slots.length < g1.slots.length := by simp [hg1s]
    obtain ⟨m1, hm1, hr1⟩ := emitWindow_moves hK (hg1 ▸ hb.of_extends hpre') hs (by omega) m
    rw [hg1] at hm1
    obtain ⟨m2, hm2, hlt, hr2⟩ := @ih g1 (offset + len) (by have := hpre.length_le; omega)
      (by rw [len_of_extends hpre hs]; omega) hb m1
    refine ⟨m2, hm1.trans hm2, fun s hmem => ?_, ?_⟩
    · rcases List.mem_cons.1 hmem with rfl | hmem
      · have := hpre'.length_le
        simp only []
        omega
      · exact hlt s hmem
    · have hfirst : b.read m2 g.slots.length = (b.read m island).window offset len :=
        (hm2.read_eq hb.home hnew).trans hr1
      rw [List.map_cons, hr2, hfirst, hm1.read_eq hb.home hs]
      rfl

end Extract

/-- The kernel of `OP_ISLAND` (`island_fwd` over `run_island`): it seeds the registers, runs the
program and copies its outputs.  `run` is `run_program`, from a register file and the state of the
effects, and `reg0` what the registers hold before. -/
structure RunsIslands (K : Kernels (IslandProg V) V S W)
    (run : Program V → (ℕ → V) → W → Except String ((ℕ → V) × W)) (reg0 : ℕ → V) : Prop where
  throws : ∀ (p : IslandProg V) (b : Binding) (op : Op (IslandProg V)) (inputs : List (List V))
    (w : W) (e : String), op.opcode = .island → op.udata = some p →
    run p.toProgram (seedIsland p.ins inputs reg0) w = .error e → K.call b op inputs w = .error e
  ends : ∀ (p : IslandProg V) (b : Binding) (op : Op (IslandProg V)) (inputs : List (List V))
    (w w' : W) (reg : ℕ → V), op.opcode = .island → op.udata = some p →
    run p.toProgram (seedIsland p.ins inputs reg0) w = .ok (reg, w') →
    ∃ r, K.call b op inputs w = .ok (r, w') ∧
      ∀ i (hi : i < p.outRegs.length), r.out i = reg p.outRegs[i]

/-- What `emitIsland` promises about the ops it emits behind `g`, run from the arena `m`. -/
structure HandsOver (K : Kernels (IslandProg V) V S W)
    (run : Program V → (ℕ → V) → W → Except String ((ℕ → V) × W)) (reg0 : ℕ → V)
    (g : Graph (IslandProg V)) (prog : IslandProg V) (slots outLens : List ℕ)
    (e : IslandEmission V) (m : Arena V) (w : W) (sh : ℕ → Option (Option S)) : Prop where
  /-- `Op::in` has room for the inputs. -/
  six : e.inputs.length ≤ 6
  /-- The island op comes behind the packing. -/
  op : ∃ out, e.packed.ops ++ [islandOp e.prog e.inputs out] <+: e.graph.ops
  /-- Through its record each live-in's registers get the elements of its window. -/
  record : ∀ (k : ℕ) (li : LiveIn) (s : ℕ), prog.ins[k]? = some li → slots[k]? = some s →
    ∃ (li' : LiveIn) (j s' : ℕ), e.prog.ins[k]? = some li' ∧ li'.reg = li.reg ∧ li'.len = li.len ∧
      li'.input = some j ∧ e.inputs[j]? = some s' ∧ ∀ i < li.len, ∃ v,
        (e.graph.bind.read ((forwardMachine K e.graph.bind).run (e.packed.ops.drop g.ops.length)
          ⟨m, w, sh⟩).state.mem s')[li'.offset + i]? = some v ∧
        (e.graph.bind.read m s)[li.offset + i]? = some v
  /-- The island throws what the program throws on the directly seeded registers. -/
  throws : ∀ err,
    run prog.toProgram (seedIsland (prog.ins.map LiveIn.direct) (slots.map (e.graph.bind.read m)) reg0)
      w = .error err →
    ((forwardMachine K e.graph.bind).run (e.graph.ops.drop g.ops.length) ⟨m, w, sh⟩).error = some err
  /-- Otherwise each live-out gets its own registers, in order, and no slot of `g` changes. -/
  ends : ∀ reg w',
    run prog.toProgram (seedIsland (prog.ins.map LiveIn.direct) (slots.map (e.graph.bind.read m)) reg0)
      w = .ok (reg, w') →
    ∃ m', ((forwardMachine K e.graph.bind).run (e.graph.ops.drop g.ops.length) ⟨m, w, sh⟩).error =
        none ∧
      ((forwardMachine K e.graph.bind).run (e.graph.ops.drop g.ops.length) ⟨m, w, sh⟩).state =
        ⟨m', w', sh⟩ ∧
      (∀ s < g.slots.length, m' s = m s) ∧
      e.outSlots.map (e.graph.bind.read m') = outLens.splitLengths (prog.outRegs.map reg)

section Emission

variable {K : Kernels (IslandProg V) V S W}
  {run : Program V → (ℕ → V) → W → Except String ((ℕ → V) × W)} {reg0 : ℕ → V} {b : Binding}
  {g : Graph (IslandProg V)} {prog : IslandProg V} {slots outLens : List ℕ} {direct : Bool}

/-- The graph with the island op as its last. -/
def withIsland (prog : IslandProg V) (slots outLens : List ℕ) (g : Graph (IslandProg V)) :
    Graph (IslandProg V) :=
  let pk := packIslandInputs prog.ins slots g
  { pk.graph with
    slots := pk.graph.slots ++ [⟨outLens.sum, false⟩]
    ops := pk.graph.ops ++
      [islandOp { prog with ins := pk.ins } pk.slots pk.graph.slots.length] }

lemma emitIsland_prog (direct : Bool) (prog : IslandProg V) (slots outLens : List ℕ)
    (g : Graph (IslandProg V)) : (emitIsland direct prog slots outLens g).prog =
      { prog with ins := (packIslandInputs prog.ins slots g).ins } := by
  unfold emitIsland
  split <;> rfl

lemma emitIsland_inputs (direct : Bool) (prog : IslandProg V) (slots outLens : List ℕ)
    (g : Graph (IslandProg V)) : (emitIsland direct prog slots outLens g).inputs =
      (packIslandInputs prog.ins slots g).slots := by
  unfold emitIsland
  split <;> rfl

lemma emitIsland_packed (direct : Bool) (prog : IslandProg V) (slots outLens : List ℕ)
    (g : Graph (IslandProg V)) : (emitIsland direct prog slots outLens g).packed =
      (packIslandInputs prog.ins slots g).graph := by
  unfold emitIsland
  split <;> rfl

/-- Behind the island op come extractions, or nothing. -/
lemma emitIsland_graph (direct : Bool) (prog : IslandProg V) (slots outLens : List ℕ)
    (g : Graph (IslandProg V)) :
    (∃ n, outLens = [n] ∧
      (emitIsland direct prog slots outLens g).graph = withIsland prog slots outLens g ∧
      (emitIsland direct prog slots outLens g).outSlots =
        [(packIslandInputs prog.ins slots g).graph.slots.length]) ∨
    ((emitIsland direct prog slots outLens g).graph =
      (extract (packIslandInputs prog.ins slots g).graph.slots.length 0 outLens
        (withIsland prog slots outLens g)).2 ∧
      (emitIsland direct prog slots outLens g).outSlots =
        (extract (packIslandInputs prog.ins slots g).graph.slots.length 0 outLens
          (withIsland prog slots outLens g)).1) := by
  unfold emitIsland
  split
  case isTrue h =>
    simp only [Bool.and_eq_true, beq_iff_eq] at h
    obtain ⟨n, hn⟩ := List.length_eq_one_iff.1 h.1.2
    exact .inl ⟨n, hn, rfl, rfl⟩
  case isFalse => exact .inr ⟨rfl, rfl⟩

lemma emitIsland_extends (direct : Bool) (prog : IslandProg V) (slots outLens : List ℕ)
    (g : Graph (IslandProg V)) : (withIsland prog slots outLens g).slots <+:
      (emitIsland direct prog slots outLens g).graph.slots := by
  rcases emitIsland_graph direct prog slots outLens g with ⟨n, -, hg, -⟩ | ⟨hg, -⟩
  · rw [hg]
  · rw [hg]
    exact extract_extends _ _ _ _

lemma NoPrimal.emitIsland (h : NoPrimal g) (direct : Bool) (prog : IslandProg V)
    (slots outLens : List ℕ) : NoPrimal (emitIsland direct prog slots outLens g).graph := by
  have hwith : NoPrimal (withIsland prog slots outLens g) := by
    intro op hop
    rcases List.mem_append.1 hop with hop | hop
    · exact h.packIslandInputs _ _ op hop
    · rw [List.mem_singleton.1 hop]
      rfl
  rcases emitIsland_graph direct prog slots outLens g with ⟨n, -, hg, -⟩ | ⟨hg, -⟩
  · rw [hg]
    exact hwith
  · rw [hg]
    exact hwith.extract _ _ _

/-- From the island's output to the live-outs. -/
lemma emitIsland_outputs (hK : MovesValues K)
    (hb : Agrees b (emitIsland direct prog slots outLens g).graph) (m : Arena V) :
    ∃ m', Moves K b (withIsland prog slots outLens g)
        (emitIsland direct prog slots outLens g).graph m m' ∧
      (emitIsland direct prog slots outLens g).outSlots.map (b.read m') =
        outLens.splitLengths (b.read m (packIslandInputs prog.ins slots g).graph.slots.length) := by
  have hslots : (withIsland prog slots outLens g).slots =
      (packIslandInputs prog.ins slots g).graph.slots ++ [⟨outLens.sum, false⟩] := rfl
  have hlt : (packIslandInputs prog.ins slots g).graph.slots.length <
      (withIsland prog slots outLens g).slots.length := by simp [hslots]
  have hlen : (withIsland prog slots outLens g).len
      (packIslandInputs prog.ins slots g).graph.slots.length = outLens.sum := by
    simp [Graph.len, hslots]
  have hread := (hb.of_extends (emitIsland_extends direct prog slots outLens g)).length_read hlt m
  rcases emitIsland_graph direct prog slots outLens g with ⟨n, hn, hg, ho⟩ | ⟨hg, ho⟩
  · refine ⟨m, by rw [hg]; exact Moves.refl _ _ _ _, ?_⟩
    rw [hlen, hn, List.sum_singleton] at hread
    rw [ho, hn, List.splitLengths_cons, ← hread, List.take_length]
    rfl
  · rw [hg] at hb ⊢
    obtain ⟨m', hm, -, hr⟩ := extract_spec hK hlt (by rw [hlen, Nat.zero_add]) hb m
    refine ⟨m', hm, ?_⟩
    rw [ho, hr, List.windowsFrom_eq, List.drop_zero]

/-- The island op, as `emitIsland` adds it. -/
def emittedIsland (prog : IslandProg V) (slots : List ℕ) (g : Graph (IslandProg V)) :
    Op (IslandProg V) :=
  islandOp { prog with ins := (packIslandInputs prog.ins slots g).ins }
    (packIslandInputs prog.ins slots g).slots (packIslandInputs prog.ins slots g).graph.slots.length

lemma withIsland_ops (prog : IslandProg V) (slots outLens : List ℕ) (g : Graph (IslandProg V)) :
    (withIsland prog slots outLens g).ops =
      (packIslandInputs prog.ins slots g).graph.ops ++ [emittedIsland prog slots g] := rfl

/-- Packing, the island, and the extractions. -/
lemma emitIsland_ops {m m1 m2 m3 : Arena V}
    (hpack : Moves K b g (packIslandInputs prog.ins slots g).graph m m1)
    (hout : Moves K b (withIsland prog slots outLens g)
      (emitIsland direct prog slots outLens g).graph m2 m3) :
    (emitIsland direct prog slots outLens g).graph.ops.drop g.ops.length =
      (packIslandInputs prog.ins slots g).graph.ops.drop g.ops.length ++
        (emittedIsland prog slots g ::
          (emitIsland direct prog slots outLens g).graph.ops.drop
            (withIsland prog slots outLens g).ops.length) := by
  obtain ⟨ops, hops, -⟩ := hpack.ops
  obtain ⟨ops', hops', -⟩ := hout.ops
  rw [hops', List.drop_left, withIsland_ops, hops, List.drop_left, List.append_assoc,
    List.append_assoc, List.drop_left, List.singleton_append]

/-- The step of the island op, when its kernel throws. -/
lemma emittedIsland_error {m : Arena V} {w : W} {sh : ℕ → Option (Option S)} {e : String}
    (hcall : K.call b (emittedIsland prog slots g)
      ((emittedIsland prog slots g).ins.map (b.read m)) w = .error e) :
    (forwardMachine K b).step (emittedIsland prog slots g) ⟨m, w, sh⟩ = .error e := by
  have hstep := @forwardOp_kernel (IslandProg V) V S W K b (emittedIsland prog slots g) ⟨m, w, sh⟩ rfl rfl
  rw [hcall] at hstep
  exact hstep

/-- The step of the island op, when its kernel returns. -/
lemma emittedIsland_ok (hhome : b.home = id) {m : Arena V} {w w' : W} {r : KernelOut V S}
    (hcall : K.call b (emittedIsland prog slots g)
      ((emittedIsland prog slots g).ins.map (b.read m)) w = .ok (r, w'))
    (sh : ℕ → Option (Option S)) : ∃ o,
    (forwardMachine K b).step (emittedIsland prog slots g) ⟨m, w, sh⟩ =
      .ok (⟨Function.update m (packIslandInputs prog.ins slots g).graph.slots.length r.out, w', sh⟩,
        o) := by
  have hstep := @forwardOp_kernel (IslandProg V) V S W K b (emittedIsland prog slots g) ⟨m, w, sh⟩ rfl rfl
  rw [hcall] at hstep
  have hstore : (emittedIsland prog slots g).store b r.out r.out2 m =
      Function.update m (packIslandInputs prog.ins slots g).graph.slots.length r.out := by
    unfold Op.store
    rw [hhome]
    rfl
  rw [Except.map] at hstep
  simp only [hstore] at hstep
  exact ⟨_, hstep⟩

/-- The ops `emit_island` adds hand the island the data of direct descriptors, and each live-out its
own registers. -/
theorem emitIsland_handsOver (hK : MovesValues K) (hI : RunsIslands K run reg0) (hg : NoPrimal g)
    (hf : List.Forall₂ (Fits g) prog.ins slots) (hout : outLens.sum = prog.outRegs.length)
    (direct : Bool) (m : Arena V) (w : W) (sh : ℕ → Option (Option S)) :
    HandsOver K run reg0 g prog slots outLens (emitIsland direct prog slots outLens g) m w sh := by
  have hb : Agrees (emitIsland direct prog slots outLens g).graph.bind
      (emitIsland direct prog slots outLens g).graph :=
    ⟨Graph.bind_home (hg.emitIsland direct prog slots outLens), fun _ _ => rfl⟩
  obtain ⟨b, hbind⟩ : ∃ b, (emitIsland direct prog slots outLens g).graph.bind = b := ⟨_, rfl⟩
  rw [hbind] at hb
  have hwith : (packIslandInputs prog.ins slots g).graph.slots <+:
      (withIsland prog slots outLens g).slots := List.prefix_append _ _
  have hbp := hb.of_extends (hwith.trans (emitIsland_extends direct prog slots outLens g))
  obtain ⟨m1, hm1, hlt, hseeds⟩ := packIslandInputs_seeds hK hf hbp m
  have hrun := hm1.run w sh
  -- the registers the island is seeded with
  have hins : ((emittedIsland prog slots g).ins.map (b.read m1)) =
      (packIslandInputs prog.ins slots g).slots.map (b.read m1) := rfl
  have hseed : seedIsland (packIslandInputs prog.ins slots g).ins
      ((packIslandInputs prog.ins slots g).slots.map (b.read m1)) reg0 =
        seedIsland (prog.ins.map LiveIn.direct) (slots.map (b.read m)) reg0 := by
    have hdirect := @seeds_direct V (b.read m) (slots.map (b.read m)) prog.ins slots 0
      hf.length_eq fun i s hi => by rw [Nat.zero_add, List.getElem?_map, hi, Option.map_some]
    rw [seedIsland, seedIsland, hseeds, hdirect]
  obtain ⟨m0, h0, -⟩ := @emitIsland_outputs V S W K b g prog slots outLens direct hK hb m1
  have hops := emitIsland_ops hm1 h0
  constructor
  case six =>
    rw [emitIsland_inputs]
    exact length_packIslandInputs _ _ _
  case op =>
    refine ⟨(packIslandInputs prog.ins slots g).graph.slots.length, ?_⟩
    rw [emitIsland_packed, emitIsland_prog, emitIsland_inputs]
    obtain ⟨ops, hops', -⟩ := h0.ops
    exact ⟨ops, hops'.symm⟩
  case record =>
    intro k li s hk hs
    rw [emitIsland_prog, emitIsland_inputs, emitIsland_packed, hbind, hrun.1]
    exact packIslandInputs_record hf hbp hseeds hk hs
  case throws =>
    intro err herr
    rw [hbind] at herr ⊢
    have hcall := hI.throws { prog with ins := (packIslandInputs prog.ins slots g).ins } b
      (emittedIsland prog slots g) ((emittedIsland prog slots g).ins.map (b.read m1)) w err rfl rfl
      (by rw [hins, hseed]; exact herr)
    rw [hops, (Machine.run_append hrun.2).2, hrun.1,
      Machine.run_cons_error (emittedIsland_error hcall)]
  case ends =>
    intro reg w' hok
    rw [hbind] at hok ⊢
    obtain ⟨r, hcall, hr⟩ := hI.ends { prog with ins := (packIslandInputs prog.ins slots g).ins } b
      (emittedIsland prog slots g) ((emittedIsland prog slots g).ins.map (b.read m1)) w w' reg rfl rfl
      (by rw [hins, hseed]; exact hok)
    obtain ⟨o, hstep⟩ := emittedIsland_ok hb.home hcall sh
    obtain ⟨m3, hm3, hread⟩ := @emitIsland_outputs V S W K b g prog slots outLens direct hK hb
      (Function.update m1 (packIslandInputs prog.ins slots g).graph.slots.length r.out)
    have hrun' := hm3.run w' sh
    have hle := hm1.length_le
    have hislots : (packIslandInputs prog.ins slots g).graph.slots.length <
        (withIsland prog slots outLens g).slots.length := by
      simp [withIsland]
    refine ⟨m3, ?_, ?_, fun s hs => ?_, ?_⟩
    · rw [hops, (Machine.run_append hrun.2).2, hrun.1, Machine.run_cons_ok hstep]
      exact hrun'.2
    · rw [hops, (Machine.run_append hrun.2).1, hrun.1, Machine.run_cons_ok hstep]
      exact hrun'.1
    · rw [hm3.frame s (by omega), Function.update_of_ne (by omega), hm1.frame s hs]
    · rw [hread]
      refine congrArg _ (read_update_eq (n := outLens.sum) hb.home ?_ (by simp [hout]) ?_)
      · rw [(hb.of_extends (emitIsland_extends direct prog slots outLens g)).len _ hislots]
        simp [Graph.len, withIsland]
      · intro i hi v hv
        rw [hout] at hi
        rw [hr i hi]
        rw [List.getElem?_map, List.getElem?_eq_getElem hi] at hv
        exact Option.some.inj hv

end Emission

/-! ### Eight live-ins -/

/-- `run_program` for code of `ADD`s. -/
def runSums (p : Program ℤ) (reg : ℕ → ℤ) (w : Unit) : Except String ((ℕ → ℤ) × Unit) :=
  .ok (p.code.foldl (fun reg I => Function.update reg I.dst (reg I.a + reg I.b)) reg, w)

/-- What `island_fwd` leaves of a register file. -/
def liveOuts (p : IslandProg ℤ) (reg : ℕ → ℤ) : KernelOut ℤ Unit :=
  ⟨fun i => (p.outRegs[i]?.map reg).getD 0, fun _ => 0, ()⟩

/-- The kernels emission uses, over the integers. -/
def sumKernels : Kernels (IslandProg ℤ) ℤ Unit Unit where
  registered _ := true
  makesState _ := false
  islandHasEffect _ := false
  forward c _ _ ins :=
    if c.opcode = .slice then
      .ok ⟨fun i => ((ins.getD 0 [])[(c.idata.getD 0 0).toNat + i]?).getD 0, fun _ => 0, ()⟩
    else if c.opcode = .concat2 then
      .ok ⟨fun i => ((ins.getD 0 [] ++ ins.getD 1 [])[i]?).getD 0, fun _ => 0, ()⟩
    else if c.opcode = .island then
      c.udata.elim (.error "no payload") fun p =>
        (runSums p.toProgram (seedIsland p.ins ins 0) ()).map fun r => liveOuts p r.1
    else .error "no kernel"
  effect _ _ _ _ _ := .error "no effect"
  backward _ _ _ _ _ _ _ _ _ _ := 0
  backward_valueFree _ _ _ _ _ _ _ _ _ _ _ _ _ _ _ := rfl

lemma sumKernels_movesValues : MovesValues sumKernels where
  slice c n n2 xs hc := by
    refine ⟨_, by simp only [sumKernels, if_pos hc]; rfl, fun i _ v hv => ?_⟩
    simp only [List.getD_cons_zero, hv, Option.getD_some]
  concat2 c n n2 xs ys hc := by
    have hne : c.opcode ≠ .slice := by rw [hc]; decide
    refine ⟨_, by simp only [sumKernels, if_neg hne, if_pos hc]; rfl, fun i _ v hv => ?_⟩
    simp [hv]

lemma sumKernels_runsIslands : RunsIslands sumKernels runSums 0 where
  throws p b op inputs w e _ _ h := by simp [runSums] at h
  ends p b op inputs w w' reg hop hp h := by
    have heff : sumKernels.hasEffect op.call = false := by
      simp [Kernels.hasEffect, Op.call, hop, hp, sumKernels, Opcode.isEffectful]
    refine ⟨liveOuts p reg, ?_, fun i hi => ?_⟩
    · have hforward : sumKernels.forward op.call (b.len op.out) ((op.out2.map b.len).getD 0) inputs =
          .ok (liveOuts p reg) := by
        simp only [sumKernels, Op.call, hop, hp, reduceCtorEq, if_false, if_true, Option.elim_some]
        rw [h]
        rfl
      rw [Kernels.call, heff, if_neg Bool.false_ne_true, hforward]
      rfl
    · simp [liveOuts, List.getElem?_eq_getElem hi]

/-- Slots of the lengths 3, 2, 2, 1, 3, 1, 2 and 0. -/
def eightSlots : Graph (IslandProg ℤ) where
  slots := [3, 2, 2, 1, 3, 1, 2, 0].map fun n => ⟨n, false⟩
  ops := []

/-- Eight live-ins: the first three, of which one is narrowed to two elements, one to a single one and
one is whole, are packed; of the others two are empty. -/
def eightProg : IslandProg ℤ where
  code := [{ code := .add, dst := 12, a := 0, b := 2 }, { code := .add, dst := 13, a := 4, b := 1 }]
  nRegs := 14
  outRegs := [12, 3, 13]
  ins := [⟨0, 2, none, 1, true, false⟩, ⟨2, 1, none, 1, true, false⟩, ⟨3, 2, none, 0, true, false⟩,
    ⟨5, 0, none, 1, true, false⟩, ⟨5, 3, none, 0, true, false⟩, ⟨8, 1, none, 0, true, false⟩,
    ⟨9, 2, none, 0, true, false⟩, ⟨11, 0, none, 0, true, false⟩]

/-- Eight live-ins, and live-outs of one, none and two elements. -/
theorem emitIsland_eight : HandsOver sumKernels runSums 0 eightSlots eightProg [0, 1, 2, 3, 4, 5, 6, 7]
    [1, 0, 2] (emitIsland true eightProg [0, 1, 2, 3, 4, 5, 6, 7] [1, 0, 2] eightSlots)
    (fun s i => 10 * s + i) () (fun _ => none) := by
  refine emitIsland_handsOver sumKernels_movesValues sumKernels_runsIslands ?_ ?_ rfl true _ () _
  · intro op hop
    simp [eightSlots] at hop
  · decide

end Lowering

end Stanli
