import Stanli.Ode.RightHandSide

/-!
# The coupled system

`DirectRkSystem.call` is `DirectRkSystem::operator()` of `ode.cpp`.  The coupled state is flat: the
states, one vector of as many cells per active initial-state lane, and one per active parameter lane.
Lane `L` of the state starts at `L * S`, the states themselves being lane zero.

`call_tracks`: whatever the storage of the solve held, the call leaves in every lane its derivative.
-/

namespace Stanli

open Program Stepper

/-- Which inputs of a solve are autodiff variables. -/
structure OdeActivity where
  y : Bool
  theta : Bool
deriving DecidableEq, Repr

namespace OdeActivity

/-- `y_lanes`. -/
def yLanes (A : OdeActivity) (states : ℕ) : ℕ := if A.y then states else 0

/-- `theta_lanes`. -/
def thetaLanes (A : OdeActivity) (thetaSource : ℕ) : ℕ := if A.theta then thetaSource else 0

/-- `lane_count`. -/
def laneCount (A : OdeActivity) (states thetaSource : ℕ) : ℕ :=
  1 + A.yLanes states + A.thetaLanes thetaSource

/-- `coupled_size`. -/
def coupledSize (A : OdeActivity) (states thetaSource : ℕ) : ℕ :=
  states * A.laneCount states thetaSource

end OdeActivity

/-- `OdeSpec::Solver`. -/
inductive OdeSolver
  | rk45 | bdf | adams | ckrk
deriving DecidableEq, Repr

/-- `OdeSpec`, as far as the direct path reads it. -/
structure OdeSpec (V : Type) where
  prog : RhsProgram V
  directRk : IslandProg V
  xr : List V
  t0 : V
  ts : List V
  rtol : V
  atol : V
  maxSteps : ℤ
  solver : OdeSolver
  legacy : Bool

/-- `x_r.data()`. -/
def OdeSpec.xrData {V : Type} [Zero V] (spec : OdeSpec V) (i : ℕ) : V := spec.xr.getD i 0

namespace DirectRkSystem

variable {V E : Type} [Field V] (M : StanMath V E Unit) (runtimeError : String → E)
  (spec : OdeSpec V) (A : OdeActivity) (states thetaSource : ℕ)

/-- The derivative of initial-state lane `lane`: `derivative += z[..] * J_y[..]`, from zero. -/
def yLane (w : DirectRkWorkspace V) (z : ℕ → V) (lane output : ℕ) : V :=
  (List.range states).foldl (fun derivative input => derivative +
    z (states + states * lane + input) * w.jY (output * states + input)) 0

/-- The derivative of parameter lane `lane`, from the parameter's own column. -/
def thetaLane (w : DirectRkWorkspace V) (z : ℕ → V) (lane output : ℕ) : V :=
  (List.range states).foldl (fun derivative input => derivative +
    z (states + states * A.yLanes states + states * lane + input) * w.jY (output * states + input))
    (w.jTheta (output * thetaSource + lane))

/-- The stores of one round of the loop over the outputs. -/
def stores (w : DirectRkWorkspace V) (z : ℕ → V) (output : ℕ) : List (ℕ × V) :=
  (output, w.f output) ::
    ((if A.y then (List.range states).map fun lane =>
        (states + states * lane + output, yLane states w z lane output) else []) ++
      (if A.theta then (List.range thetaSource).map fun lane =>
        (states + states * A.yLanes states + states * lane + output,
          thetaLane A states thetaSource w z lane output) else []))

/-- `DirectRkSystem::operator()`: `size` is the size of the vector `z`, `dz` the storage of the
result. -/
def call (theta : ℕ → V) (w : DirectRkWorkspace V) (size : ℕ) (z dz : ℕ → V) (t : V) :
    Except E ((ℕ → V) × DirectRkWorkspace V) :=
  if size ≠ A.coupledSize states thetaSource then
    .error (runtimeError "coupled RK state has unexpected size")
  else
    (w.evaluate M spec.prog spec.directRk A.theta thetaSource spec.xrData t z theta).map fun w =>
      (Scatter.storeAll ((List.range states).flatMap (stores A states thetaSource w z)) dz, w)

end DirectRkSystem

/-! ## The system it computes -/

/-- `dz` is the derivative of the coupled state `z`: `f` in the states, `J_y` times the lane in an
initial-state lane, and the parameter's column of `J_theta` plus `J_y` times the lane in a parameter
lane. -/
structure IsCoupledDerivative {V : Type} [Field V] (A : OdeActivity) (states thetaSource : ℕ)
    (f : ℕ → V) (jY jTheta : ℕ → ℕ → V) (z dz : ℕ → V) : Prop where
  base : ∀ o < states, dz o = f o
  yLane : A.y = true → ∀ l < states, ∀ o < states, dz (states + states * l + o) =
    ∑ i ∈ Finset.range states, jY o i * z (states + states * l + i)
  thetaLane : A.theta = true → ∀ l < thetaSource, ∀ o < states,
    dz (states + states * A.yLanes states + states * l + o) = jTheta o l +
      ∑ i ∈ Finset.range states, jY o i * z (states + states * A.yLanes states + states * l + i)

/-- The derivative of lane `L` in state `o`. -/
def laneDerivative {V : Type} [Field V] (A : OdeActivity) (states : ℕ) (f : ℕ → V)
    (jY jTheta : ℕ → ℕ → V) (z : ℕ → V) (L o : ℕ) : V :=
  if L = 0 then f o
  else (if L ≤ A.yLanes states then 0 else jTheta o (L - 1 - A.yLanes states)) +
    ∑ i ∈ Finset.range states, jY o i * z (L * states + i)

namespace DirectRkSystem

variable {V E : Type} [Field V] {M : StanMath V E Unit} {runtimeError : String → E}
  {spec : OdeSpec V} {A : OdeActivity} {states thetaSource : ℕ}

/-- The loop over the inputs is a row of a matrix product. -/
lemma foldl_lane (w : DirectRkWorkspace V) (z : ℕ → V) (base output : ℕ) (v : V) :
    (List.range states).foldl (fun derivative input => derivative +
      z (base + input) * w.jY (output * states + input)) v =
      v + ∑ i ∈ Finset.range states, w.jY (output * states + i) * z (base + i) := by
  rw [foldl_add_map]
  congr 1
  change ∑ i ∈ Finset.range states, z (base + i) * w.jY (output * states + i) = _
  exact Finset.sum_congr rfl fun i _ => mul_comm _ _

/-- The derivative of a lane, from what `evaluate` left in the storage. -/
def storedDerivative (A : OdeActivity) (states thetaSource : ℕ) (w : DirectRkWorkspace V) (z : ℕ → V) :
    ℕ → ℕ → V :=
  laneDerivative A states w.f (fun o i => w.jY (o * states + i))
    (fun o l => w.jTheta (o * thetaSource + l)) z

lemma yLane_eq (thetaSource : ℕ) (w : DirectRkWorkspace V) (z : ℕ → V) (hy : A.y = true) {l : ℕ}
    (hl : l < states) (o : ℕ) : yLane states w z l o = storedDerivative A states thetaSource w z (1 + l) o := by
  have hlanes : A.yLanes states = states := if_pos hy
  rw [yLane, foldl_lane, storedDerivative, laneDerivative, if_neg (by omega),
    if_pos (by rw [hlanes]; omega)]
  refine congrArg _ (Finset.sum_congr rfl fun i _ => ?_)
  rw [Nat.add_mul, Nat.one_mul, Nat.mul_comm l]

lemma thetaLane_eq (w : DirectRkWorkspace V) (z : ℕ → V) (l o : ℕ) :
    thetaLane A states thetaSource w z l o =
      storedDerivative A states thetaSource w z (1 + A.yLanes states + l) o := by
  rw [thetaLane, foldl_lane, storedDerivative, laneDerivative, if_neg (by omega), if_neg (by omega),
    show 1 + A.yLanes states + l - 1 - A.yLanes states = l by omega]
  refine congrArg _ (Finset.sum_congr rfl fun i _ => ?_)
  rw [Nat.add_mul, Nat.add_mul, Nat.one_mul, Nat.mul_comm l, Nat.mul_comm (A.yLanes states)]

/-- The stores of a call: one for each state of each lane. -/
lemma mem_stores_iff {w : DirectRkWorkspace V} {z : ℕ → V} {e : ℕ × V} :
    e ∈ (List.range states).flatMap (stores A states thetaSource w z) ↔
      ∃ L < A.laneCount states thetaSource, ∃ o < states,
        e = (L * states + o, storedDerivative A states thetaSource w z L o) := by
  simp only [List.mem_flatMap, List.mem_range]
  constructor
  · rintro ⟨o, ho, he⟩
    unfold stores at he
    rcases List.mem_cons.1 he with rfl | he
    · exact ⟨0, by unfold OdeActivity.laneCount; omega, o, ho, by simp [storedDerivative, laneDerivative]⟩
    · rcases List.mem_append.1 he with he | he
      · split at he
        · rename_i hy
          obtain ⟨l, hl, rfl⟩ := List.mem_map.1 he
          have hl := List.mem_range.1 hl
          refine ⟨1 + l, ?_, o, ho, Prod.ext ?_ (yLane_eq thetaSource w z hy hl o)⟩
          · have hlanes : A.yLanes states = states := if_pos hy
            unfold OdeActivity.laneCount
            omega
          · dsimp only
            rw [Nat.add_mul, Nat.one_mul, Nat.mul_comm l]
        · cases he
      · split at he
        · rename_i htheta
          obtain ⟨l, hl, rfl⟩ := List.mem_map.1 he
          have hl := List.mem_range.1 hl
          refine ⟨1 + A.yLanes states + l, ?_, o, ho, Prod.ext ?_ (thetaLane_eq w z l o)⟩
          · have hlanes : A.thetaLanes thetaSource = thetaSource := if_pos htheta
            unfold OdeActivity.laneCount
            omega
          · dsimp only
            rw [Nat.add_mul, Nat.add_mul, Nat.one_mul, Nat.mul_comm l, Nat.mul_comm (A.yLanes states)]
        · cases he
  · rintro ⟨L, hL, o, ho, rfl⟩
    refine ⟨o, ho, ?_⟩
    unfold stores
    unfold OdeActivity.laneCount at hL
    rcases Nat.eq_zero_or_pos L with rfl | hpos
    · rw [Nat.zero_mul, Nat.zero_add]
      exact List.mem_cons.2 (Or.inl (by simp [storedDerivative, laneDerivative]))
    · refine List.mem_cons_of_mem _ (List.mem_append.2 ?_)
      rcases Nat.lt_or_ge (A.yLanes states) L with hlt | hle
      · refine Or.inr ?_
        have htheta : A.theta = true := by
          by_contra hn
          have : A.thetaLanes thetaSource = 0 := if_neg hn
          omega
        have hlanes : A.thetaLanes thetaSource = thetaSource := if_pos htheta
        rw [if_pos htheta]
        obtain ⟨l, rfl⟩ := Nat.exists_eq_add_of_lt hlt
        refine List.mem_map.2 ⟨l, List.mem_range.2 (by omega), Prod.ext ?_ ?_⟩
        · dsimp only
          rw [show A.yLanes states + l + 1 = 1 + A.yLanes states + l by omega, Nat.add_mul, Nat.add_mul,
            Nat.one_mul, Nat.mul_comm l, Nat.mul_comm (A.yLanes states)]
        · dsimp only
          rw [thetaLane_eq, show A.yLanes states + l + 1 = 1 + A.yLanes states + l by omega]
      · refine Or.inl ?_
        have hy : A.y = true := by
          by_contra hn
          have : A.yLanes states = 0 := if_neg hn
          omega
        have hlanes : A.yLanes states = states := if_pos hy
        rw [if_pos hy]
        obtain ⟨l, rfl⟩ := Nat.exists_eq_add_of_lt hpos
        refine List.mem_map.2 ⟨l, List.mem_range.2 (by omega), Prod.ext ?_ ?_⟩
        · dsimp only
          rw [show 0 + l + 1 = 1 + l by omega, Nat.add_mul, Nat.one_mul, Nat.mul_comm l]
        · dsimp only
          rw [yLane_eq thetaSource w z hy (by omega), show 0 + l + 1 = 1 + l by omega]

/-- A call leaves in every lane its derivative. -/
lemma storeAll_stores (w : DirectRkWorkspace V) (z dz : ℕ → V) {L o : ℕ}
    (hL : L < A.laneCount states thetaSource) (ho : o < states) :
    Scatter.storeAll ((List.range states).flatMap (stores A states thetaSource w z)) dz
      (L * states + o) = storedDerivative A states thetaSource w z L o := by
  apply Scatter.storeAll_of_mem
  · exact mem_stores_iff.2 ⟨L, hL, o, ho, rfl⟩
  · intro e he hcell
    obtain ⟨L', -, o', ho', rfl⟩ := mem_stores_iff.1 he
    obtain ⟨rfl, rfl⟩ := Scatter.row_eq_of_add_eq ho' ho hcell
    rfl

variable {rhs : RhsProgram V} {generated : IslandProg V}

/-- The derivatives of the lanes, from the value and the Jacobian of the right-hand side. -/
lemma isCoupledDerivative_of_lanes {f : ℕ → V} {jY jTheta : ℕ → ℕ → V} {z dz : ℕ → V}
    (h : ∀ L < A.laneCount states thetaSource, ∀ o < states,
      dz (L * states + o) = laneDerivative A states f jY jTheta z L o) :
    IsCoupledDerivative A states thetaSource f jY jTheta z dz where
  base o ho := by
    have h0 := h 0 (by unfold OdeActivity.laneCount; omega) o ho
    rwa [Nat.zero_mul, Nat.zero_add, laneDerivative, if_pos rfl] at h0
  yLane hy l hl o ho := by
    have hlanes : A.yLanes states = states := if_pos hy
    have hcell := h (1 + l) (by unfold OdeActivity.laneCount; omega) o ho
    rw [Nat.add_mul, Nat.one_mul, Nat.mul_comm l, laneDerivative, if_neg (by omega),
      if_pos (by omega), zero_add] at hcell
    rw [hcell]
    refine Finset.sum_congr rfl fun i _ => ?_
    rw [Nat.add_mul, Nat.one_mul, Nat.mul_comm l]
  thetaLane htheta l hl o ho := by
    have hlanes : A.thetaLanes thetaSource = thetaSource := if_pos htheta
    have hcell := h (1 + A.yLanes states + l) (by unfold OdeActivity.laneCount; omega) o ho
    rw [Nat.add_mul, Nat.add_mul, Nat.one_mul, Nat.mul_comm l, Nat.mul_comm (A.yLanes states),
      laneDerivative, if_neg (by omega), if_neg (by omega),
      show 1 + A.yLanes states + l - 1 - A.yLanes states = l by omega] at hcell
    rw [hcell]
    refine congrArg _ (Finset.sum_congr rfl fun i _ => ?_)
    rw [Nat.add_mul, Nat.add_mul, Nat.one_mul, Nat.mul_comm l, Nat.mul_comm (A.yLanes states)]

/-- What the storage holds is all a lane's derivative reads. -/
lemma storedDerivative_eq {w : DirectRkWorkspace V} {f : ℕ → V} {jY jTheta : ℕ → ℕ → V}
    (hf : ∀ o < states, w.f o = f o)
    (hY : ∀ o < states, ∀ i < states, w.jY (o * states + i) = jY o i)
    (hTheta : A.theta = true → ∀ o < states, ∀ l < thetaSource,
      w.jTheta (o * thetaSource + l) = jTheta o l)
    (z : ℕ → V) {L o : ℕ} (hL : L < A.laneCount states thetaSource) (ho : o < states) :
    storedDerivative A states thetaSource w z L o = laneDerivative A states f jY jTheta z L o := by
  have hsum : ∑ i ∈ Finset.range states, w.jY (o * states + i) * z (L * states + i) =
      ∑ i ∈ Finset.range states, jY o i * z (L * states + i) :=
    Finset.sum_congr rfl fun i hi => by rw [hY o ho i (Finset.mem_range.1 hi)]
  unfold storedDerivative laneDerivative
  rw [hf o ho, hsum]
  rcases Nat.eq_zero_or_pos L with rfl | hpos
  · rfl
  · rcases Nat.lt_or_ge (A.yLanes states) L with hlt | hle
    · have htheta : A.theta = true := by
        by_contra hn
        have : A.thetaLanes thetaSource = 0 := if_neg hn
        unfold OdeActivity.laneCount at hL
        omega
      have hlanes : A.thetaLanes thetaSource = thetaSource := if_pos htheta
      have hcell := hTheta htheta o ho (L - 1 - A.yLanes states)
        (by unfold OdeActivity.laneCount at hL; omega)
      rw [if_neg (by omega), if_neg (by omega), if_neg (by omega), if_neg (by omega), ← hcell]
    · rw [if_pos hle, if_pos hle]

section Call

variable (haccept : spec.prog.makeRhsAdjointProgram M.toRegistry = .ok spec.directRk)
  (hinit : IslandProg.InitialisesReads M.toRegistry spec.prog.island)
  (hderives : IslandProg.Derives M spec.prog.island spec.directRk (· ∈ spec.prog.island.activeIns))
  (hstates : spec.prog.nY = states) (hsource : spec.prog.nTh ≤ thetaSource)
  (hout : spec.prog.outRegs.length = states)

include haccept hinit hderives hstates hsource hout

/-- `DirectRkSystem::operator()` leaves in every lane its derivative, or fails as the right-hand side
does. -/
theorem call_tracks (runtimeError : String → E) (A : OdeActivity) (theta : ℕ → V)
    (w : DirectRkWorkspace V) (z dz : ℕ → V) (t : V) :
    Tracks (fun r f => ∀ L < A.laneCount states thetaSource, ∀ o < states,
        r.1 (L * states + o) = laneDerivative A states f
          (spec.prog.jacobianY M spec.xrData t z theta)
          (spec.prog.jacobianTheta M spec.xrData t z theta) z L o)
      (call M runtimeError spec A states thetaSource theta w (A.coupledSize states thetaSource) z dz t)
      (spec.prog.value M spec.xrData t z theta) := by
  have htracks := DirectRkWorkspace.evaluate_tracks A.theta haccept hinit hderives hsource
    (hout.trans hstates.symm) spec.xrData t z theta w
  rw [call, if_neg (not_not.2 rfl)]
  refine htracks.map_left _ fun w' f h L hL o ho => ?_
  obtain ⟨hf, hY, hTheta⟩ := h
  rw [hstates] at hf hY hTheta
  dsimp only
  rw [storeAll_stores w' z dz hL ho]
  exact storedDerivative_eq hf hY hTheta z hL ho

end Call

end DirectRkSystem

end Stanli
