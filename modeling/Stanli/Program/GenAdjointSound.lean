import Mathlib.Data.Rat.Floor
import Stanli.Program.Activity

/-!
# The generated adjoint

`genAdjoint_derives`: the program `gen_adjoint` makes runs as the original does, and its backward
gives the adjoint cells of the active live-ins the reverse-mode derivative of the executed path.
-/

namespace Stanli

open Program

namespace IslandProg

variable {V E S : Type*} [Field V] {R : Registry} {p : IslandProg V} {keep : Bool}
  {es : List Emitted} {M : StanMath V E S}

/-! ## Seeds -/

/-- The adjoints of the registers that seeds on the live-outs give. -/
def seedRegs (p : IslandProg V) (seeds : List V) : ℕ → V := gather (p.outRegs.zip seeds)

/-- The adjoint file `island_bwd` starts from: the seeds are added, the last one first. -/
def seedCells (p : IslandProg V) (seeds : List V) : ℕ → V :=
  addAll (fun _ => 0) ((p.outRegs.zip seeds).reverse.map fun e => (p.adj.adjReg.getD e.1 0, e.2))

omit [Field V] in
lemma outRegs_lt (hacc : p.accepts R = true) {r : ℕ} (hr : r ∈ p.outRegs) : r < p.nRegs := by
  simp only [accepts, Bool.and_eq_true, List.all_eq_true] at hacc
  have := inRange_iff.1 (hacc.1.1.2 r hr)
  omega

omit [Field V] in
lemma liveIn_lt (hacc : p.accepts R = true) {r : ℕ} (hr : p.isLiveIn r = true) : r < p.nRegs :=
  (show p.Ready [] r from Or.inl hr).lt hacc

lemma adjReg_getD {r : ℕ} (hr : r < p.nRegs) :
    (p.assemble R keep es).adj.adjReg.getD r 0 = p.adjCell R r := by
  change ((List.range p.nRegs).map (p.adjCell R)).getD r 0 = _
  rw [List.getD_eq_getElem _ _ (by simpa using hr)]
  simp

/-- The seeded adjoint file holds the seeded adjoints. -/
lemma cellsHold_seeds (hd : Differentiated R p keep es) (hinit : InitialisesReads R p)
    {s t : File V S} {vs : List (ℕ × File V S)} {nx : ℕ}
    (hrun : (p.machine M).sweep 0 p.code 0 s = (vs, .ok (nx, t))) (seeds : List V) :
    CellsHold R p (vs.map Prod.fst) (p.seedRegs seeds) ((p.assemble R keep es).seedCells seeds) := by
  obtain ⟨pc, hpc, hpath⟩ := controlPath_of_sweep (forward_of_accepts hd.accepts M) hrun
  have hmem : ∀ e ∈ p.outRegs.zip seeds, e.1 ∈ p.outRegs := fun e he => (List.of_mem_zip he).1
  refine ⟨fun r _ hn => gather_eq_zero ?_, fun r hr _ => ?_⟩
  · rintro e he rfl
    exact hn (hinit.outs _ pc hpath hpc e.1 (hmem e he))
  · rw [seedCells, addAll_apply, zero_add, seedRegs,
      fiberSum_gather _ fun e he => outRegs_lt hd.accepts (hmem e he),
      gather_perm ((List.reverse_perm _).map _)]
    congr 1
    refine List.map_congr_left fun e he => ?_
    rw [adjReg_getD (outRegs_lt hd.accepts (hmem e he))]

lemma zeroOutside_seeds (p : IslandProg V) (seeds : List V) :
    p.ZeroOutside p.outRegs (p.seedRegs seeds) := by
  intro r hr
  obtain ⟨e, he, rfl, -⟩ := gather_ne_zero hr
  exact Or.inl (List.of_mem_zip he).1

/-! ## Runs -/

/-- The backward of a run that does not fail leaves in the cells of the active live-ins the adjoints
of the executed path, from any adjoints at its end that the adjoint file holds. -/
theorem runAdjoint_liveIn (hd : Differentiated R p keep es) (hR : M.toRegistry = R)
    (hM : M.HonestKernels) (hca : p.CallsApart) (hs : p.ScratchPrivate)
    (hinit : InitialisesReads R p) (hneed : (p.neededSweep (valueOperands R)).isSome = true)
    {s₀ s t : File V S} {vs ws : List (ℕ × File V S)} {nx : ℕ}
    (hrun : (p.machine M).sweep 0 p.code 0 s₀ = (vs, .ok (nx, s)))
    (hrel : AugmentedRel M R p keep es p.code.length vs ws s t) {seed adj : ℕ → V}
    (hcells : CellsHold R p (vs.map Prod.fst) seed adj) (hseed : p.ZeroOutside p.outRegs seed)
    {r : ℕ} (hr : p.isLiveIn r = true) (hact : r ∈ p.activeIns) :
    runAdjoint M (p.assemble R keep es).toProgram (p.assemble R keep es).adj t.reg adj
        (p.adjCell R r) = p.pathAdjoint M vs seed r := by
  rw [runAdjoint_visited hd hrun hrel.trail, ← kept_eq_path hd hR hM hneed hrun hseed hact]
  refine CellsHold.liveIn hd ?_ hr
  exact cells_run hd hR hM hca hs hinit hrun
    (fun v hv I e s' hI he hex => holds_of_run hd hrun hrel hv hI he hex) hcells

/-- Two runs end alike: with the same error, or with the same effects and the same values in the
registers of `outs`. -/
def SameEnd (outs : List ℕ) (r r' : Except E (File V S)) : Prop :=
  match r, r' with
  | .error e, .error e' => e = e'
  | .ok s, .ok t => (∀ r ∈ outs, t.reg r = s.reg r) ∧ t.eff = s.eff
  | _, _ => False

/-- `q` derives `p` for the live-ins in `exact`: from every register file it runs as `p` does, by the
same branches, and after a run that does not fail its backward turns seeds on the live-outs into the
adjoints of the executed path. -/
structure Derives (M : StanMath V E S) (p q : IslandProg V) (exact : ℕ → Prop) : Prop where
  outs : q.outRegs = p.outRegs
  runs : ∀ s, ∃ vs r, p.Runs M s vs r
  alike : ∀ s vs r, p.Runs M s vs r → ∃ ws r', q.Runs M s ws r' ∧ SameEnd p.outRegs r r' ∧
    p.branches M vs = q.branches M ws
  adjoint : ∀ s vs ws t t', p.Runs M s vs (.ok t) → q.Runs M s ws (.ok t') → ∀ seeds r,
    p.isLiveIn r = true → exact r →
      runAdjoint M q.toProgram q.adj t'.reg (q.seedCells seeds) (q.adj.adjReg.getD r 0) =
        p.pathAdjoint M vs (p.seedRegs seeds) r

lemma runs_iff {q : IslandProg V} (hf : (q.machine M).Forward q.code) {s : File V S}
    {vs : List (ℕ × File V S)} {r : Except E (File V S)} : q.Runs M s vs r ↔
      ∃ r', (q.machine M).sweep 0 q.code 0 s = (vs, r') ∧ r = r'.map Prod.snd := by
  refine (Branching.exists_run_iff_sweep hf).trans ?_
  constructor
  · intro h
    obtain ⟨h1, h2⟩ := Prod.mk.inj h
    exact ⟨_, by rw [h1], h2⟩
  · rintro ⟨r', h, rfl⟩
    rw [h]

lemma runs_ok_iff {q : IslandProg V} (hf : (q.machine M).Forward q.code) {s t : File V S}
    {vs : List (ℕ × File V S)} : q.Runs M s vs (.ok t) ↔
      ∃ nx, (q.machine M).sweep 0 q.code 0 s = (vs, .ok (nx, t)) := by
  rw [runs_iff hf]
  constructor
  · rintro ⟨r', h, hr⟩
    cases r' with
    | error e => simp [Except.map] at hr
    | ok r =>
      obtain rfl : t = r.2 := Except.ok.inj hr
      exact ⟨r.1, h⟩
  · rintro ⟨nx, h⟩
    exact ⟨_, h, rfl⟩

/-- What is differentiated derives the program. -/
lemma derives_of_genAdjoint {q : IslandProg V} (hR : M.toRegistry = R) (hM : M.HonestKernels)
    (hints : M.ExactInts) (hca : p.CallsApart) (hs : p.ScratchPrivate) (hinit : InitialisesReads R p)
    (hneed : (p.neededSweep (valueOperands R)).isSome = true) (hq : p.genAdjoint R keep = (true, q)) :
    Derives M p q (· ∈ p.activeIns) := by
  unfold genAdjoint at hq
  cases hdiff : p.differentiate R keep with
  | none => simp [hdiff] at hq
  | some q' =>
    obtain rfl : q' = q := by simpa [hdiff] using hq
    obtain ⟨es, hd, rfl⟩ := differentiate_spec hdiff
    have hf := forward_of_accepts hd.accepts M
    have hf' := assembled_forward hd M
    refine ⟨rfl, fun s => ⟨_, _, (runs_iff hf).2 ⟨_, rfl, rfl⟩⟩, fun s vs r hrun => ?_,
      fun s vs ws t t' hrun hrun' seeds r hr hact => ?_⟩
    · obtain ⟨r', hsweep, rfl⟩ := (runs_iff hf).1 hrun
      have halike := augmented_sweep hd hints hR (s := s) (t := s) ⟨fun _ _ => rfl, rfl⟩
      refine ⟨_, _, (runs_iff hf').2 ⟨_, rfl, rfl⟩, ?_⟩
      rw [hsweep] at halike
      revert halike
      cases r' with
      | error e =>
        cases ((p.assemble R keep es).machine M).sweep 0 (p.assemble R keep es).code 0 s with
        | mk ws r'' => cases r'' with
          | error e' => exact fun h => ⟨h.1, h.2⟩
          | ok t => exact fun h => h.elim
      | ok t =>
        cases ((p.assemble R keep es).machine M).sweep 0 (p.assemble R keep es).code 0 s with
        | mk ws r'' => cases r'' with
          | error e' => exact fun h => h.elim
          | ok t' =>
            intro h
            exact ⟨⟨fun r hr => (h.same.1 r (outRegs_lt hd.accepts hr)).symm, h.same.2.symm⟩,
              h.branches⟩
    · obtain ⟨nx, hsweep⟩ := (runs_ok_iff hf).1 hrun
      obtain ⟨nx', hsweep'⟩ := (runs_ok_iff hf').1 hrun'
      have hrel := augmented_sweep hd hints hR (s := s) (t := s) ⟨fun _ _ => rfl, rfl⟩
      rw [hsweep, hsweep'] at hrel
      rw [adjReg_getD (liveIn_lt hd.accepts hr)]
      exact runAdjoint_liveIn hd hR hM hca hs hinit hneed hsweep hrel
        (cellsHold_seeds hd hinit hsweep seeds) (zeroOutside_seeds p seeds) hr hact

end IslandProg

/-! ## A density and a shared scratch -/

/-- The rationals with one density, the product of its two arguments, and one kernel, half the
square, which keeps its argument in its scratch. -/
def ratMath : StanMath ℚ String Unit where
  densityArity _ := 2
  findKernel _ := none
  toInt x := ⌊x⌋
  ofInt n := n
  isWhole x := decide (x = ⌊x⌋)
  lt x y := decide (x < y)
  le x y := decide (x ≤ y)
  eq x y := decide (x = y)
  modulus m n := .ok (m % n)
  divide m n := .ok (m / n)
  unary _ x := .ok x
  binary _ _ x y := .ok (x + y)
  logMix x y z := .ok (x + y + z)
  logSumExp xs := .ok xs.sum
  softmax xs := xs
  extrema _ _ xs := .ok (xs.getD 0 0)
  mdivide _ _ _ ys := .ok ys
  density _ xs := .ok xs.prod
  densityVec _ _ xs := .ok xs.flatten.sum
  negInf := 0
  forward _ _ ins s := .ok (([(ins.flatten.getD 0 0) ^ 2 / 2], [ins.flatten.getD 0 0]), s)
  transform _ ins := .ok (ins.flatten, 0)
  print _ _ s := s
  reject _ _ := "reject"
  outOfRange message := message
  logicError message := message
  unaryPartial _ _ := 1
  binaryPartial _ _ _ _ := (1, 1)
  powPartial _ _ _ _ := (1, 1)
  logMixPartial _ _ _ := (1, 1, 1)
  expPartial x := x
  densityPartial _ xs k := xs.getD (1 - k) 0
  extremaPartial _ _ _ k := if k = 0 then 1 else 0
  backward _ _ _ _ scratch adj := [[adj.getD 0 0 * scratch.getD 0 0]]

lemma ratMath_honest : ratMath.HonestKernels where
  reads _ _ _ _ _ _ _ _ _ _ _ _ := rfl
  zero f shape ins out scratch adj h amounts hamounts t ht := by
    obtain rfl : amounts = [adj.getD 0 0 * scratch.getD 0 0] := List.mem_singleton.1 hamounts
    obtain rfl := List.mem_singleton.1 ht
    have : adj.getD 0 0 = 0 := by
      rw [List.getD_eq_getElem?_getD]
      cases hget : adj[0]? with
      | none => rfl
      | some u => exact h u (List.mem_of_getElem? hget)
    rw [this, zero_mul]

lemma ratMath_exactInts : ratMath.ExactInts where
  zero := Int.floor_zero
  ofInt k := Int.floor_natCast k

namespace IslandProg

/-- A density of a parameter and a datum. -/
def productDensity : IslandProg ℚ where
  code := [{ code := .density, dst := 2, a := 0, b := 1 }]
  nRegs := 3
  outRegs := [2]
  ins := [{ reg := 0, len := 1 }, { reg := 1, len := 1, active := false }]

/-- The product of the square of one parameter and another one, and half its square unless the other one
is zero: the product takes the place of the square, and the call is behind a branch. -/
def guardedCall : IslandProg ℚ where
  code := [{ code := .square, dst := 2, a := 0 }, { code := .mul, dst := 2, a := 2, b := 1 },
    { code := .jz, a := 1, dst := 5 }, { code := .call, a := 0 }, { code := .jmp, dst := 6 },
    { code := .mov, dst := 3, a := 2 }]
  calls := [
    { opcode := 0, forward := some 0, backward := some 0, ins := [⟨2, 1⟩], out := ⟨3, 1⟩,
      scratch := ⟨4, 1⟩ }]
  nRegs := 5
  outRegs := [3]
  ins := [{ reg := 0, len := 1 }, { reg := 1, len := 1 }]

/-- Two calls that share their scratch. -/
def sharedScratch : IslandProg ℚ where
  code := [{ code := .call, a := 0 }, { code := .call, a := 1 }]
  calls := [
    { opcode := 0, forward := some 0, backward := some 0, ins := [⟨0, 1⟩], out := ⟨2, 1⟩,
      scratch := ⟨4, 1⟩ },
    { opcode := 0, forward := some 0, backward := some 0, ins := [⟨1, 1⟩], out := ⟨3, 1⟩,
      scratch := ⟨4, 1⟩ }]
  nRegs := 5
  outRegs := [2, 3]
  ins := [{ reg := 0, len := 2 }]

/-- Definite initialisation from the registers that are known to be written in front of every position,
and behind the code. -/
lemma initialisesReads_of_written {V : Type*} {R : Registry} {p : IslandProg V}
    (written : List (List ℕ)) (final : List ℕ) (hlen : written.length = p.code.length)
    (hstart : written.getD 0 final = [])
    (hstep : ∀ e ∈ p.code.zipIdx, ∀ pc' ∈ e.1.successors e.2, ∀ r ∈ written.getD pc' final,
      r ∈ written.getD e.2 final ∨ r ∈ p.defines e.1)
    (hreads : ∀ e ∈ p.code.zipIdx, ∀ r ∈ p.readRegs R e.1,
      p.isLiveIn r = true ∨ r ∈ written.getD e.2 final)
    (houts : ∀ r ∈ p.outRegs, p.isLiveIn r = true ∨ r ∈ final) : InitialisesReads R p := by
  have hpath : ∀ {vs : List ℕ} {pc : ℕ}, p.ControlPath vs pc → ∀ r ∈ written.getD pc final,
      ∃ j ∈ vs, ∃ J, p.code[j]? = some J ∧ r ∈ p.defines J := by
    intro vs pc h
    induction h with
    | start =>
      intro r hr
      rw [hstart] at hr
      cases hr
    | @step vs pc pc' I _ hI hnext ih =>
      intro r hr
      rcases hstep (I, pc) (List.mk_mem_zipIdx_iff_getElem?.2 hI) pc' hnext r hr with hbefore | hdef
      · obtain ⟨j, hj, hJ⟩ := ih r hbefore
        exact ⟨j, List.mem_append_left _ hj, hJ⟩
      · exact ⟨pc, List.mem_append_right _ (List.mem_singleton_self pc), I, hI, hdef⟩
  refine ⟨fun vs pc I h hI r hr => ?_, fun vs pc h hle r hr => ?_⟩
  · exact (hreads (I, pc) (List.mk_mem_zipIdx_iff_getElem?.2 hI) r hr).imp_right (hpath h r)
  · have hend : written.getD pc final = final := List.getD_eq_default _ _ (hlen ▸ hle)
    refine (houts r hr).imp_right fun hmem => hpath h r ?_
    rwa [hend]

lemma guardedCall_initialises : InitialisesReads ratMath.toRegistry guardedCall :=
  initialisesReads_of_written [[], [2], [2], [2], [2, 3], [2]] [2, 3] rfl rfl (by decide) (by decide)
    (by decide)

lemma productDensity_initialises : InitialisesReads ratMath.toRegistry productDensity :=
  initialisesReads_of_written [[]] [2] rfl rfl (by decide) (by decide) (by decide)

lemma sharedScratch_initialises : InitialisesReads ratMath.toRegistry sharedScratch :=
  initialisesReads_of_written [[], [2]] [2, 3] rfl rfl (by decide) (by decide) (by decide)

end IslandProg

end Stanli
