import Stanli.Lib.MixedRadix
import Stanli.Lib.Scatter
import Stanli.Lib.Stepper
import Stanli.Program.Agree
import Stanli.Program.GenAdjointSound

/-!
# The derivative of a compiled right-hand side

`RhsProgram` is the compiled right-hand side of `ode_prog.hpp`, `makeRhsAdjointProgram` its
differentiated clone, and `DirectRkWorkspace.evaluate` is `DirectRkDerivative::evaluate` of `ode.cpp`:
one run of the clone and one reverse sweep per output, in storage that every call finds as the last
one left it.

`evaluate_tracks`: whatever the storage held, the call leaves the value of the right-hand side and the
rows of its Jacobian.
-/

namespace Stanli

open Program Stepper

/-! ## The right-hand side -/

/-- `program_code_spec(code).name`. -/
def Program.Code.specName : Code → String
  | .const => "CONST" | .fill => "FILL" | .constr => "CONSTR" | .mov => "MOV" | .movr => "MOVR"
  | .add => "ADD" | .sub => "SUB" | .mul => "MUL" | .div => "DIV"
  | .imod => "IMOD" | .idiv => "IDIV" | .iadd => "IADD" | .isub => "ISUB" | .imul => "IMUL"
  | .ineg => "INEG" | .iabs => "IABS"
  | .pow => "POW" | .fmax => "FMAX" | .fmin => "FMIN" | .neg => "NEG"
  | .exp => "EXP" | .log => "LOG" | .sqrt => "SQRT" | .square => "SQUARE" | .inv => "INV"
  | .fabs => "FABS" | .invLogit => "INV_LOGIT" | .log1m => "LOG1M" | .log1pExp => "LOG1P_EXP"
  | .tanh => "TANH"
  | .gt => "GT" | .ge => "GE" | .lt => "LT" | .le => "LE" | .eq => "EQ" | .ne => "NE"
  | .dynSet => "DYN_SET" | .dynIndex => "DYN_INDEX" | .extremaRange => "EXTREMA_RANGE"
  | .jz => "JZ" | .jmp => "JMP"
  | .logRange => "LOG_RANGE" | .expRange => "EXP_RANGE" | .dot => "DOT"
  | .dynLseRange => "DYN_LSE_RANGE" | .lseRange => "LSE_RANGE" | .softmax => "SOFTMAX"
  | .lse2 => "LSE2" | .logDiffExp => "LOG_DIFF_EXP" | .lmultiply => "LMULTIPLY"
  | .logMix => "LOG_MIX" | .fma => "FMA"
  | .diagPreMultiply => "DIAG_PRE_MULTIPLY" | .diagPostMultiply => "DIAG_POST_MULTIPLY"
  | .mdivideLeft => "MDIVIDE_LEFT" | .mdivideRightSpd => "MDIVIDE_RIGHT_SPD"
  | .density => "DENSITY" | .call => "CALL" | .transform => "TRANSFORM" | .print => "PRINT"
  | .reject => "REJECT" | .densityVec => "DENSITY_VEC" | .range => "RANGE"
  | .erfc => "ERFC" | .log1p => "LOG1P" | .log1mExp => "LOG1M_EXP" | .invSquare => "INV_SQUARE"
  | .path => "PATH"

/-- `exact_ode_adjoint_opcode`. -/
def Program.Code.exactOdeAdjoint (code : Code) : Bool :=
  decide (code ∈ [Code.const, .fill, .constr, .mov, .movr, .add, .iadd, .isub, .imul, .ineg, .iabs,
    .sub, .mul, .div, .pow, .neg, .exp, .log, .sqrt, .square, .inv, .fabs, .invLogit, .log1m,
    .log1pExp, .tanh, .gt, .ge, .lt, .le, .eq, .ne, .logRange, .expRange, .lse2, .logMix, .fma])

/-- A compiled right-hand side: a program, and where `run_rhs` deposits the call's arguments. -/
structure RhsProgram (V : Type*) extends Program V where
  tReg : ℕ
  y0 : ℕ
  th0 : ℕ
  xr0 : ℕ
  nY : ℕ
  nTh : ℕ
  nXr : ℕ
  ok : Bool
  why : String := ""

/-- `run_program` on code whose branches go forward (`runProgram_runs`): the path, and how it ends. -/
def Program.runProgram {V E S : Type*} [Field V] (M : StanMath V E S) (p : Program V) (s : File V S) :
    List (ℕ × File V S) × Except E (File V S) :=
  let r := (p.machine M).sweep 0 p.code 0 s
  (r.1, r.2.map Prod.snd)

lemma IslandProg.runProgram_iff {V E S : Type*} [Field V] {M : StanMath V E S} {q : IslandProg V}
    (hf : (q.machine M).Forward q.code) {s : File V S} {vs : List (ℕ × File V S)}
    {r : Except E (File V S)} : q.Runs M s vs r ↔ q.runProgram M s = (vs, r) := by
  rw [runs_iff hf]
  unfold runProgram
  constructor
  · rintro ⟨r', hsweep, rfl⟩
    rw [hsweep]
  · intro h
    obtain ⟨h1, h2⟩ := Prod.mk.inj h
    exact ⟨_, Prod.ext h1 rfl, h2.symm⟩

namespace RhsProgram

variable {V : Type} [Field V]

/-- The four live-in ranges that `make_rhs_adjoint_program` gives its candidate. -/
def island (rhs : RhsProgram V) : IslandProg V where
  toProgram := rhs.toProgram
  ins := [
    { reg := rhs.tReg, len := 1, active := false },
    { reg := rhs.y0, len := rhs.nY, active := true },
    { reg := rhs.th0, len := rhs.nTh, active := true },
    { reg := rhs.xr0, len := rhs.nXr, active := false }]

/-- `make_rhs_adjoint_program`: the clone, or the refusal. -/
def makeRhsAdjointProgram (R : Registry) (rhs : RhsProgram V) : Except String (IslandProg V) :=
  if !rhs.ok then .error ("compiled RHS unavailable: " ++ rhs.why)
  else
    match rhs.code.find? fun instruction => !instruction.code.exactOdeAdjoint with
    | some instruction =>
      .error ("opcode " ++ instruction.code.specName ++ " is not in the exact direct-RK whitelist")
    | none =>
      let candidate := rhs.island.genAdjoint R false
      if candidate.1 then .ok candidate.2 else .error "generated adjoint refused the compiled RHS"

/-- `seed_rhs_regs`. -/
def seedRhsRegs (rhs : RhsProgram V) (t : V) (y th xr reg : ℕ → V) : ℕ → V :=
  let reg := writeRun reg rhs.y0 ((List.range rhs.nY).map y)
  let reg := writeRun reg rhs.th0 ((List.range rhs.nTh).map th)
  let reg := Function.update reg rhs.tReg t
  writeRun reg rhs.xr0 ((List.range rhs.nXr).map xr)

/-! ## What it means -/

variable {E : Type} (M : StanMath V E Unit) (rhs : RhsProgram V)

/-- The run of the right-hand side from an empty register file. -/
def path (xr : ℕ → V) (t : V) (y th : ℕ → V) : List (ℕ × File V Unit) × Except E (File V Unit) :=
  rhs.runProgram M ⟨rhs.seedRhsRegs t y th xr fun _ => 0, ()⟩

/-- Output `k` of a register file. -/
def output (file : File V Unit) (k : ℕ) : V := (rhs.outRegs[k]?).elim 0 file.reg

/-- `f(t, y)`. -/
def value (xr : ℕ → V) (t : V) (y th : ℕ → V) : Except E (ℕ → V) :=
  (rhs.path M xr t y th).2.map rhs.output

/-- The seeds that select output `k` of `n`. -/
def oneHot (n k : ℕ) : List V := (List.range n).map fun j => if j = k then 1 else 0

/-- The reverse-mode derivative of output `o`, by register. -/
def gradient (xr : ℕ → V) (t : V) (y th : ℕ → V) (o : ℕ) : ℕ → V :=
  rhs.pathAdjoint M (rhs.path M xr t y th).1 (rhs.island.seedRegs (oneHot rhs.outRegs.length o))

/-- `J_y`. -/
def jacobianY (xr : ℕ → V) (t : V) (y th : ℕ → V) (o i : ℕ) : V :=
  rhs.gradient M xr t y th o (rhs.y0 + i)

/-- `J_theta`: no program reads a parameter past its `n_th`. -/
def jacobianTheta (xr : ℕ → V) (t : V) (y th : ℕ → V) (o l : ℕ) : V :=
  if l < rhs.nTh then rhs.gradient M xr t y th o (rhs.th0 + l) else 0

variable {M rhs}

/-- A right-hand side reads its states and the parameters up to its `n_th`. -/
lemma path_congr {y y' th th' : ℕ → V} (hy : ∀ i < rhs.nY, y i = y' i)
    (hth : ∀ l < rhs.nTh, th l = th' l) (xr : ℕ → V) (t : V) :
    rhs.path M xr t y th = rhs.path M xr t y' th' := by
  have hseed : rhs.seedRhsRegs t y th xr (fun _ => 0) = rhs.seedRhsRegs t y' th' xr fun _ => 0 := by
    unfold seedRhsRegs
    rw [List.map_congr_left fun i hi => hy i (List.mem_range.1 hi),
      List.map_congr_left fun l hl => hth l (List.mem_range.1 hl)]
  rw [path, path, hseed]

lemma value_congr {y y' th th' : ℕ → V} (hy : ∀ i < rhs.nY, y i = y' i)
    (hth : ∀ l < rhs.nTh, th l = th' l) (xr : ℕ → V) (t : V) :
    rhs.value M xr t y th = rhs.value M xr t y' th' := by
  rw [value, value, path_congr hy hth]

lemma jacobianY_congr {y y' th th' : ℕ → V} (hy : ∀ i < rhs.nY, y i = y' i)
    (hth : ∀ l < rhs.nTh, th l = th' l) (xr : ℕ → V) (t : V) :
    rhs.jacobianY M xr t y th = rhs.jacobianY M xr t y' th' := by
  funext o i
  rw [jacobianY, jacobianY, gradient, gradient, path_congr hy hth]

lemma jacobianTheta_congr {y y' th th' : ℕ → V} (hy : ∀ i < rhs.nY, y i = y' i)
    (hth : ∀ l < rhs.nTh, th l = th' l) (xr : ℕ → V) (t : V) :
    rhs.jacobianTheta M xr t y th = rhs.jacobianTheta M xr t y' th' := by
  funext o l
  rw [jacobianTheta, jacobianTheta, gradient, gradient, path_congr hy hth]

end RhsProgram

/-! ## `DirectRkDerivative` -/

/-- `DirectRkWorkspace`: the storage of one solve. -/
structure DirectRkWorkspace (V : Type) where
  values : ℕ → V
  adjoints : ℕ → V
  f : ℕ → V
  jY : ℕ → V
  jTheta : ℕ → V

namespace DirectRkWorkspace

variable {V E : Type} [Field V] (M : StanMath V E Unit) (rhs : RhsProgram V)
  (generated : IslandProg V) (thetaAutodiff : Bool) (thetaSource : ℕ)

/-- The row of one output: seed its cell, sweep, and read the cells of the inputs. -/
def row (w : DirectRkWorkspace V) (output : ℕ) : DirectRkWorkspace V :=
  let cell (reg : ℕ) : ℕ := generated.adj.adjReg.getD reg 0
  let adjoints := Function.update (fun _ => 0) (cell (generated.outRegs.getD output 0)) 1
  let adjoints := runAdjoint M generated.toProgram generated.adj w.values adjoints
  { w with
    adjoints := adjoints
    jY := Scatter.storeAll ((List.range rhs.nY).map fun input =>
      (output * rhs.nY + input, adjoints (cell (rhs.y0 + input)))) w.jY
    jTheta := if thetaAutodiff then
        Scatter.storeAll ((List.range rhs.nTh).map fun input =>
          (output * thetaSource + input, adjoints (cell (rhs.th0 + input)))) w.jTheta
      else w.jTheta }

/-- `DirectRkDerivative::evaluate`. -/
def evaluate (xr : ℕ → V) (t : V) (y th : ℕ → V) (w : DirectRkWorkspace V) :
    Except E (DirectRkWorkspace V) :=
  (generated.runProgram M ⟨rhs.seedRhsRegs t y th xr w.values, ()⟩).2.map fun file =>
    let w := { w with
      values := file.reg
      jTheta := if thetaAutodiff then
          fun c => if c < rhs.nY * thetaSource then 0 else w.jTheta c
        else w.jTheta
      f := Scatter.storeAll (generated.outRegs.zipIdx.map fun r => (r.2, file.reg r.1)) w.f }
    (List.range generated.outRegs.length).foldl (row M rhs generated thetaAutodiff thetaSource) w

end DirectRkWorkspace

/-! ## What the clone computes -/

namespace RhsProgram

variable {V E : Type} [Field V] {M : StanMath V E Unit} {rhs : RhsProgram V}
  {generated : IslandProg V} {R : Registry}

/-- What an accepted right-hand side went through. -/
lemma makeRhsAdjointProgram_eq_ok (h : rhs.makeRhsAdjointProgram R = .ok generated) :
    (∀ I ∈ rhs.code, I.code.exactOdeAdjoint = true) ∧
      rhs.island.genAdjoint R false = (true, generated) := by
  unfold makeRhsAdjointProgram at h
  split at h
  · cases h
  · split at h
    · cases h
    · rename_i hfind
      refine ⟨fun I hI => by simpa using List.find?_eq_none.1 hfind I hI, ?_⟩
      dsimp only at h
      split at h
      · rename_i hacc
        exact Prod.ext hacc (Except.ok.inj h)
      · cases h

/-- The clone of an accepted right-hand side. -/
lemma exists_differentiated (h : rhs.makeRhsAdjointProgram R = .ok generated) :
    ∃ es, IslandProg.Differentiated R rhs.island false es ∧
      generated = rhs.island.assemble R false es := by
  have hgen := (makeRhsAdjointProgram_eq_ok h).2
  cases hdiff : rhs.island.differentiate R false with
  | none =>
    rw [IslandProg.genAdjoint, hdiff] at hgen
    cases hgen
  | some q =>
    rw [IslandProg.genAdjoint, hdiff] at hgen
    obtain ⟨es, hd, hq⟩ := IslandProg.differentiate_spec hdiff
    exact ⟨es, hd, (congrArg Prod.snd hgen).symm.trans hq⟩

omit [Field V] in
/-- The registers the four ranges seed. -/
lemma isLiveIn_island {r : ℕ} : rhs.island.isLiveIn r = true ↔ r = rhs.tReg ∨
    (rhs.y0 ≤ r ∧ r < rhs.y0 + rhs.nY) ∨ (rhs.th0 ≤ r ∧ r < rhs.th0 + rhs.nTh) ∨
    (rhs.xr0 ≤ r ∧ r < rhs.xr0 + rhs.nXr) := by
  have hmem : ∀ li : LiveIn, r ∈ li.regs ↔ li.reg ≤ r ∧ r < li.reg + li.len :=
    fun li => Span.mem_regs
  simp only [IslandProg.isLiveIn, island, List.any_cons, List.any_nil, Bool.or_false, Bool.or_eq_true,
    decide_eq_true_iff, hmem]
  omega

omit [Field V] in
/-- A run of stores hides what was there, and keeps what is outside. -/
lemma writeRun_eq {x y : ℕ → V} {dst r : ℕ} (vs : List V)
    (h : x r = y r ∨ (dst ≤ r ∧ r < dst + vs.length)) : writeRun x dst vs r = writeRun y dst vs r := by
  have hkept : ∀ r', r' = r ∧ x r = y r → x r' = y r' := by
    rintro _ ⟨rfl, hxy⟩
    exact hxy
  have hcell : ∀ r', r' = r → (r' = r ∧ x r = y r) ∨ (dst ≤ r' ∧ r' < dst + vs.length) := by
    rintro _ rfl
    exact h.imp_left fun hxy => ⟨rfl, hxy⟩
  exact agreeOn_writeRun hkept hcell r rfl

omit [Field V] in
/-- Storage from an earlier call does not reach the registers of the arguments. -/
lemma seedRhsRegs_liveIn {r : ℕ} (hr : rhs.island.isLiveIn r = true) (t : V) (y th xr : ℕ → V)
    (reg reg' : ℕ → V) :
    rhs.seedRhsRegs t y th xr reg r = rhs.seedRhsRegs t y th xr reg' r := by
  unfold seedRhsRegs
  apply writeRun_eq
  rw [List.length_map, List.length_range]
  rcases isLiveIn_island.1 hr with h | h | h | h
  · refine Or.inl ?_
    rw [h, Function.update_self, Function.update_self]
  · refine Or.inl ?_
    rcases eq_or_ne r rhs.tReg with rfl | hne
    · rw [Function.update_self, Function.update_self]
    · rw [Function.update_of_ne hne, Function.update_of_ne hne]
      apply writeRun_eq
      refine Or.inl (writeRun_eq _ (Or.inr ?_))
      rwa [List.length_map, List.length_range]
  · refine Or.inl ?_
    rcases eq_or_ne r rhs.tReg with rfl | hne
    · rw [Function.update_self, Function.update_self]
    · rw [Function.update_of_ne hne, Function.update_of_ne hne]
      apply writeRun_eq
      rw [List.length_map, List.length_range]
      exact Or.inr h
  · exact Or.inr h

/-- Contributions of which one is not zero. -/
lemma gather_oneHot (g : ℕ → ℕ) (n o c : ℕ) :
    gather ((List.range n).map fun j => (g j, if j = o then (1 : V) else 0)) c =
      if o < n ∧ g o = c then 1 else 0 := by
  induction n with
  | zero => simp
  | succ n ih =>
    rw [List.range_succ, List.map_append, gather_append, ih, List.map_singleton, gather_cons,
      gather_nil, add_zero]
    dsimp only
    rcases eq_or_ne n o with rfl | hne
    · simp
    · rw [if_neg hne, ite_self, add_zero]
      exact if_congr (and_congr_left' (by omega)) rfl rfl

/-- Seeding one output is storing a one. -/
lemma seedCells_oneHot {o : ℕ} (ho : o < generated.outRegs.length) :
    generated.seedCells (oneHot generated.outRegs.length o) = Function.update (fun _ => 0)
      (generated.adj.adjReg.getD (generated.outRegs.getD o 0) 0) 1 := by
  have hzip : generated.outRegs.zip (oneHot generated.outRegs.length o) =
      (List.range generated.outRegs.length).map fun j =>
        (generated.outRegs.getD j 0, if j = o then (1 : V) else 0) := by
    conv_lhs => rw [← MixedRadix.map_getD_range_eq generated.outRegs 0]
    rw [List.length_map, List.length_range, oneHot, List.zip_map']
  funext c
  rw [IslandProg.seedCells, addAll_apply, zero_add, gather_perm ((List.reverse_perm _).map _), hzip,
    List.map_map]
  change gather ((List.range _).map fun j => (generated.adj.adjReg.getD
    (generated.outRegs.getD j 0) 0, if j = o then (1 : V) else 0)) c = _
  rw [gather_oneHot, Function.update_apply]
  exact if_congr ⟨fun h => h.2.symm, fun h => ⟨ho, h.symm⟩⟩ rfl rfl

/-- What earlier calls left in the registers changes neither the result of a run nor the adjoints of its
path. -/
lemma path_leftover (haccept : rhs.makeRhsAdjointProgram M.toRegistry = .ok generated)
    (hinit : IslandProg.InitialisesReads M.toRegistry rhs.island) (xr : ℕ → V) (t : V) (y th : ℕ → V)
    (reg : ℕ → V) {vs : List (ℕ × File V Unit)} {r : Except E (File V Unit)}
    (hrun : rhs.runProgram M ⟨rhs.seedRhsRegs t y th xr reg, ()⟩ = (vs, r)) :
    Tracks (fun file f => rhs.output file = f ∧ ∀ o r,
      rhs.pathAdjoint M vs (rhs.island.seedRegs (oneHot rhs.outRegs.length o)) r =
        rhs.gradient M xr t y th o r) r (rhs.value M xr t y th) := by
  have hcodes := (makeRhsAdjointProgram_eq_ok haccept).1
  obtain ⟨es, hd, -⟩ := exists_differentiated haccept
  have hacc := hd.accepts
  have hne : ∀ {code : Code}, code.exactOdeAdjoint = false → ∀ I ∈ rhs.code, I.code ≠ code := by
    intro code hcode I hI hc
    rw [← hc, hcodes I hI] at hcode
    cases hcode
  have hends := IslandProg.run_agree (p := rhs.island) hacc rfl
    (fun I hI hc => absurd hc (hne rfl I hI)) (hne rfl) hinit
    (s := ⟨rhs.seedRhsRegs t y th xr reg, ()⟩) (t := ⟨rhs.seedRhsRegs t y th xr fun _ => 0, ()⟩)
    ⟨fun r hr => seedRhsRegs_liveIn hr t y th xr _ _, rfl⟩
  unfold value gradient path
  unfold runProgram at hrun ⊢
  change Branching.EndsAlike _ _ ((rhs.machine M).sweep 0 rhs.code 0 _)
    ((rhs.machine M).sweep 0 rhs.code 0 _) at hends
  revert hrun hends
  rcases (rhs.machine M).sweep 0 rhs.code 0 ⟨rhs.seedRhsRegs t y th xr reg, ()⟩ with ⟨vs', e | ⟨nx, s⟩⟩ <;>
    rcases (rhs.machine M).sweep 0 rhs.code 0 ⟨rhs.seedRhsRegs t y th xr fun _ => 0, ()⟩ with
      ⟨ws, e' | ⟨nx', s'⟩⟩ <;> intro hrun hends
  · obtain ⟨rfl, rfl⟩ := Prod.mk.inj hrun
    obtain ⟨rfl, -⟩ := hends
    exact tracks_error e
  · exact hends.elim
  · exact hends.elim
  · obtain ⟨rfl, rfl⟩ := Prod.mk.inj hrun
    obtain ⟨hvisits, hagree⟩ := hends
    refine tracks_ok ⟨funext fun k => ?_, fun o r => ?_⟩
    · unfold output
      cases hk : rhs.outRegs[k]? with
      | none => rfl
      | some r => exact hagree.1 r (List.mem_of_getElem? hk)
    · exact congrFun (IslandProg.pathAdjoint_agree (p := rhs.island) hacc rfl
        (fun I hI hc => absurd hc (hne rfl I hI)) (hne rfl) hvisits _) r

/-- From any registers the clone leaves the value of the right-hand side, and its sweep from one output
the derivatives of that output in the cells of the states and the parameters. -/
lemma generated_tracks (haccept : rhs.makeRhsAdjointProgram M.toRegistry = .ok generated)
    (hinit : IslandProg.InitialisesReads M.toRegistry rhs.island)
    (hderives : IslandProg.Derives M rhs.island generated (· ∈ rhs.island.activeIns)) (xr : ℕ → V)
    (t : V) (y th : ℕ → V) (reg : ℕ → V) :
    Tracks (fun file f => (∀ k, (generated.outRegs[k]?).elim 0 file.reg = f k) ∧
      ∀ o < rhs.outRegs.length, ∀ r, rhs.island.isLiveIn r = true → r ∈ rhs.island.activeIns →
        runAdjoint M generated.toProgram generated.adj file.reg (Function.update (fun _ => 0)
          (generated.adj.adjReg.getD (generated.outRegs.getD o 0) 0) 1)
          (generated.adj.adjReg.getD r 0) = rhs.gradient M xr t y th o r)
      (generated.runProgram M ⟨rhs.seedRhsRegs t y th xr reg, ()⟩).2 (rhs.value M xr t y th) := by
  obtain ⟨es, hd, hassemble⟩ := exists_differentiated haccept
  have hforward := IslandProg.forward_of_accepts hd.accepts M
  have hforward' : (generated.machine M).Forward generated.code := by
    rw [hassemble]
    exact IslandProg.assembled_forward hd M
  cases hrun : rhs.runProgram M ⟨rhs.seedRhsRegs t y th xr reg, ()⟩ with
  | mk vs r =>
    have hruns : rhs.island.Runs M ⟨rhs.seedRhsRegs t y th xr reg, ()⟩ vs r :=
      (IslandProg.runProgram_iff hforward).2 hrun
    have htracks := path_leftover haccept hinit xr t y th reg hrun
    obtain ⟨ws, r', hruns', hend, -⟩ := hderives.alike _ vs r hruns
    have hrun' := (IslandProg.runProgram_iff hforward').1 hruns'
    rw [hrun']
    cases r with
    | error e =>
      cases r' with
      | error e' =>
        obtain rfl : e = e' := hend
        rw [htracks.2 e rfl]
        exact tracks_error e
      | ok file' => exact hend.elim
    | ok file =>
      cases r' with
      | error e' => exact hend.elim
      | ok file' =>
        obtain ⟨f, hf, hout, hgradient⟩ := htracks.1 file rfl
        rw [hf]
        refine tracks_ok ⟨fun k => ?_, fun o ho r hlive hactive => ?_⟩
        · rw [← hout, output, hderives.outs]
          change (rhs.outRegs[k]?).elim 0 file'.reg = (rhs.outRegs[k]?).elim 0 file.reg
          cases hk : rhs.outRegs[k]? with
          | none => rfl
          | some r => exact hend.1 r (List.mem_of_getElem? hk)
        · have hlen : generated.outRegs.length = rhs.outRegs.length := congrArg _ hderives.outs
          rw [← hgradient, ← seedCells_oneHot (hlen ▸ ho), hlen]
          exact hderives.adjoint _ vs ws file file' hruns hruns' _ r hlive hactive

end RhsProgram

/-! ## What a call leaves -/

namespace DirectRkWorkspace

variable {V E : Type} [Field V] {M : StanMath V E Unit} {rhs : RhsProgram V}
  {generated : IslandProg V} {thetaAutodiff : Bool} {thetaSource : ℕ}

/-- The adjoint that the sweep from output `o` leaves for register `r`. -/
def cellsOf (M : StanMath V E Unit) (generated : IslandProg V) (values : ℕ → V) (o r : ℕ) : V :=
  runAdjoint M generated.toProgram generated.adj values (Function.update (fun _ => 0)
    (generated.adj.adjReg.getD (generated.outRegs.getD o 0) 0) 1) (generated.adj.adjReg.getD r 0)

/-- The row of an output holds the adjoints of its sweep. -/
lemma row_jY (w : DirectRkWorkspace V) {k o i : ℕ} (hi : i < rhs.nY) :
    (row M rhs generated thetaAutodiff thetaSource w k).jY (o * rhs.nY + i) =
      if o = k then cellsOf M generated w.values k (rhs.y0 + i) else w.jY (o * rhs.nY + i) := by
  refine (Scatter.storeAll_row _ _ le_rfl hi).trans (if_congr ?_ rfl rfl)
  exact and_iff_left hi

lemma row_jTheta (hyes : thetaAutodiff = true) (hsource : rhs.nTh ≤ thetaSource)
    (w : DirectRkWorkspace V) {k o l : ℕ} (hl : l < thetaSource) :
    (row M rhs generated thetaAutodiff thetaSource w k).jTheta (o * thetaSource + l) =
      if o = k ∧ l < rhs.nTh then cellsOf M generated w.values k (rhs.th0 + l)
      else w.jTheta (o * thetaSource + l) :=
  (congrFun (if_pos hyes) _).trans (Scatter.storeAll_row _ _ hsource hl)

/-- The rows written so far hold the sweeps' adjoints; nothing else has changed. -/
lemma rows_spec (M : StanMath V E Unit) (rhs : RhsProgram V) (generated : IslandProg V)
    (thetaAutodiff : Bool) (hsource : rhs.nTh ≤ thetaSource) (w : DirectRkWorkspace V) (k : ℕ) :
    let w' := (List.range k).foldl (row M rhs generated thetaAutodiff thetaSource) w
    w'.values = w.values ∧ w'.f = w.f ∧
      (∀ o i, i < rhs.nY → w'.jY (o * rhs.nY + i) =
        if o < k then cellsOf M generated w.values o (rhs.y0 + i) else w.jY (o * rhs.nY + i)) ∧
      (thetaAutodiff = true → ∀ o l, l < thetaSource → w'.jTheta (o * thetaSource + l) =
        if o < k ∧ l < rhs.nTh then cellsOf M generated w.values o (rhs.th0 + l)
        else w.jTheta (o * thetaSource + l)) := by
  induction k with
  | zero => exact ⟨rfl, rfl, fun _ _ _ => rfl, fun _ _ _ _ => (if_neg (by omega)).symm⟩
  | succ k ih =>
    obtain ⟨hvalues, hf, hY, hTheta⟩ := ih
    simp only [List.range_succ, List.foldl_append, List.foldl_cons, List.foldl_nil]
    refine ⟨hvalues, hf, fun o i hi => ?_, fun hyes o l hl => ?_⟩
    · rw [row_jY _ hi, hY o i hi, hvalues]
      rcases eq_or_ne o k with rfl | hne
      · rw [if_pos rfl, if_pos (Nat.lt_succ_self o)]
      · rw [if_neg hne]
        exact if_congr (by omega) rfl rfl
    · rw [row_jTheta hyes hsource _ hl, hTheta hyes o l hl, hvalues]
      rcases eq_or_ne o k with rfl | hne
      · rw [if_neg (show ¬(o < o ∧ l < rhs.nTh) by omega)]
        exact if_congr (by omega) rfl rfl
      · rw [if_neg fun h => hne h.1]
        exact if_congr (by omega) rfl rfl

/-- `DirectRkDerivative::evaluate` leaves the value and the Jacobian of the right-hand side, or fails
as the right-hand side does, whatever an earlier call or an earlier row left in the storage. -/
theorem evaluate_tracks (thetaAutodiff : Bool)
    (haccept : rhs.makeRhsAdjointProgram M.toRegistry = .ok generated)
    (hinit : IslandProg.InitialisesReads M.toRegistry rhs.island)
    (hderives : IslandProg.Derives M rhs.island generated (· ∈ rhs.island.activeIns))
    (hsource : rhs.nTh ≤ thetaSource) (hout : rhs.outRegs.length = rhs.nY) (xr : ℕ → V) (t : V)
    (y th : ℕ → V) (w : DirectRkWorkspace V) :
    Tracks (fun w' f => (∀ o < rhs.nY, w'.f o = f o) ∧
      (∀ o < rhs.nY, ∀ i < rhs.nY, w'.jY (o * rhs.nY + i) = rhs.jacobianY M xr t y th o i) ∧
      (thetaAutodiff = true → ∀ o < rhs.nY, ∀ l < thetaSource,
        w'.jTheta (o * thetaSource + l) = rhs.jacobianTheta M xr t y th o l))
      (evaluate M rhs generated thetaAutodiff thetaSource xr t y th w) (rhs.value M xr t y th) := by
  have hlen : generated.outRegs.length = rhs.nY := (congrArg _ hderives.outs).trans hout
  have hactive : ∀ r, (rhs.y0 ≤ r ∧ r < rhs.y0 + rhs.nY) ∨ (rhs.th0 ≤ r ∧ r < rhs.th0 + rhs.nTh) →
      rhs.island.isLiveIn r = true ∧ r ∈ rhs.island.activeIns := by
    intro r hr
    refine ⟨RhsProgram.isLiveIn_island.2 (by tauto), ?_⟩
    have hmem : ∀ li : LiveIn, r ∈ li.regs ↔ li.reg ≤ r ∧ r < li.reg + li.len :=
      fun li => Span.mem_regs
    simpa [IslandProg.activeIns, RhsProgram.island, hmem] using hr
  have htracks := RhsProgram.generated_tracks haccept hinit hderives xr t y th w.values
  unfold evaluate
  revert htracks
  cases (generated.runProgram M ⟨rhs.seedRhsRegs t y th xr w.values, ()⟩).2 with
  | error e =>
    intro htracks
    rw [htracks.2 e rfl]
    exact tracks_error e
  | ok file =>
    intro htracks
    obtain ⟨f, hf, hvalue, hgradient⟩ := htracks.1 file rfl
    rw [hf]
    obtain ⟨hvalues, hfs, hY, hTheta⟩ := rows_spec M rhs generated thetaAutodiff hsource
      { w with
        values := file.reg
        jTheta := if thetaAutodiff then
            fun c => if c < rhs.nY * thetaSource then 0 else w.jTheta c
          else w.jTheta
        f := Scatter.storeAll (generated.outRegs.zipIdx.map fun r => (r.2, file.reg r.1)) w.f }
      generated.outRegs.length
    refine tracks_ok ⟨fun o ho => ?_, fun o ho i hi => ?_, fun hyes o ho l hl => ?_⟩
    · rw [hfs, ← hvalue o]
      obtain ⟨reg, hget⟩ : ∃ reg, generated.outRegs[o]? = some reg :=
        ⟨_, List.getElem?_eq_getElem (hlen.symm ▸ ho)⟩
      rw [hget]
      apply Scatter.storeAll_of_mem
      · exact List.mem_map.2 ⟨(reg, o), List.mem_zipIdx_iff_getElem?.2 hget, rfl⟩
      · rintro _ he hcell
        obtain ⟨⟨r, j⟩, hr, rfl⟩ := List.mem_map.1 he
        obtain rfl : j = o := hcell
        rw [List.mem_zipIdx_iff_getElem?, hget] at hr
        exact congrArg file.reg (Option.some.inj hr).symm
    · have hcell := hgradient o (hout.symm ▸ ho) (rhs.y0 + i)
      obtain ⟨hlive, hact⟩ := hactive (rhs.y0 + i) (Or.inl (by omega))
      rw [hY o i hi, if_pos (hlen.symm ▸ ho), RhsProgram.jacobianY, ← hcell hlive hact]
      rfl
    · rw [hTheta hyes o l hl, RhsProgram.jacobianTheta, hlen]
      by_cases hread : l < rhs.nTh
      · have hcell := hgradient o (hout.symm ▸ ho) (rhs.th0 + l)
        obtain ⟨hlive, hact⟩ := hactive (rhs.th0 + l) (Or.inr (by omega))
        rw [if_pos ⟨ho, hread⟩, if_pos hread, ← hcell hlive hact]
        rfl
      · rw [if_neg fun h => hread h.2, if_neg hread, if_pos hyes]
        refine if_pos ?_
        calc o * thetaSource + l < (o + 1) * thetaSource := by rw [Nat.add_mul, Nat.one_mul]; omega
          _ ≤ rhs.nY * thetaSource := Nat.mul_le_mul_right _ ho

end DirectRkWorkspace

end Stanli
