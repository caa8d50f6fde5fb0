import Mathlib.Analysis.Calculus.Deriv.Comp
import Mathlib.Analysis.Calculus.Deriv.Prod
import Mathlib.Analysis.Calculus.Deriv.Pi
import Mathlib.Analysis.Calculus.Deriv.Add
import Mathlib.Analysis.Calculus.Deriv.Mul
import Mathlib.Topology.Algebra.Module.ModuleTopology
import Stanli.Ode.Solve

/-!
# The lanes are derivatives

An explicit integrator that makes given moves turns the initial state and the parameters into the
states at the output times (`OdeSpec.trajectory`).  Where the right-hand side is differentiable with
the Jacobians its program computes, the lanes of the coupled system are the partial derivatives of
those states (`hasDerivAt_lane`).

The proof runs the system on curves: a vector that depends on one real parameter, of which a coupled
state holds the value and the derivative at zero.
-/

namespace Stanli

open Program Stepper Topology

variable {V E : Type} [NontriviallyNormedField V]

/-! ## Differentiable right-hand sides -/

/-- A finite vector as cells. -/
def extend {n : ℕ} (x : Fin n → V) (i : ℕ) : V := if h : i < n then x ⟨i, h⟩ else 0

/-- The first cells as a finite vector. -/
def restrict (n : ℕ) (x : ℕ → V) (i : Fin n) : V := x i


lemma extend_restrict {n i : ℕ} (x : ℕ → V) (h : i < n) : extend (restrict n x) i = x i := dif_pos h

namespace RhsProgram

variable (M : StanMath V E Unit) (rhs : RhsProgram V)

/-- The value where there is one. -/
def valueOr (xr : ℕ → V) (t : V) (y th : ℕ → V) : ℕ → V :=
  match rhs.value M xr t y th with
  | .ok f => f
  | .error _ => fun _ => 0

/-- Output `o` as a function of the states and of the parameters that are read. -/
def outputAt (xr : ℕ → V) (t : V) (o : ℕ) (q : (Fin rhs.nY → V) × (Fin rhs.nTh → V)) : V :=
  rhs.valueOr M xr t (extend q.1) (extend q.2) o

/-- The linear map with the given rows. -/
noncomputable def linearMap (n m : ℕ) (jY jTheta : ℕ → V) : (Fin n → V) × (Fin m → V) →L[V] V :=
  ∑ i : Fin n, jY i • (ContinuousLinearMap.proj i).comp (ContinuousLinearMap.fst V _ _) +
    ∑ l : Fin m, jTheta l • (ContinuousLinearMap.proj l).comp (ContinuousLinearMap.snd V _ _)

/-- Near a point the right-hand side does not fail, and the Jacobians its program computes there are its
derivative. -/
structure DifferentiableAt (xr : ℕ → V) (t : V) (y th : ℕ → V) : Prop where
  ok : ∀ᶠ q : (Fin rhs.nY → V) × (Fin rhs.nTh → V) in 𝓝 (restrict _ y, restrict _ th),
    ∃ f, rhs.value M xr t (extend q.1) (extend q.2) = .ok f
  hasFDerivAt : ∀ o < rhs.nY, HasFDerivAt (rhs.outputAt M xr t o)
    (linearMap rhs.nY rhs.nTh (rhs.jacobianY M xr t y th o) (rhs.jacobianTheta M xr t y th o))
    (restrict _ y, restrict _ th)

variable {M rhs}

lemma linearMap_apply (n m : ℕ) (jY jTheta v τ : ℕ → V) :
    linearMap n m jY jTheta (restrict n v, restrict m τ) =
      ∑ i ∈ Finset.range n, jY i * v i + ∑ l ∈ Finset.range m, jTheta l * τ l := by
  rw [Finset.sum_range, Finset.sum_range]
  simp [linearMap, restrict]

lemma valueOr_of_ok {xr : ℕ → V} {t : V} {y th f : ℕ → V} (h : rhs.value M xr t y th = .ok f) :
    rhs.valueOr M xr t y th = f := by
  rw [valueOr, h]

/-- The value depends on the states and the parameters that are read. -/
lemma outputAt_restrict (xr : ℕ → V) (t : V) (y th : ℕ → V) (o : ℕ) :
    rhs.outputAt M xr t o (restrict _ y, restrict _ th) = rhs.valueOr M xr t y th o := by
  rw [outputAt, valueOr, valueOr, value_congr (fun i hi => extend_restrict y hi)
    fun l hl => extend_restrict th hl]

/-- Where a right-hand side is differentiable it has a value. -/
lemma DifferentiableAt.exists_value {xr : ℕ → V} {t : V} {y th : ℕ → V}
    (h : rhs.DifferentiableAt M xr t y th) : ∃ f, rhs.value M xr t y th = .ok f := by
  obtain ⟨f, hf⟩ := h.ok.self_of_nhds
  refine ⟨f, ?_⟩
  rwa [value_congr (fun i hi => extend_restrict y hi) fun l hl => extend_restrict th hl] at hf

end RhsProgram

/-! ## Curves -/

section Curves

/-- A curve through the states of `z` whose derivative is in lane `L`. -/
structure IsLaneCurve (states L : ℕ) (z : ℕ → V) (g : V → ℕ → V) : Prop where
  at_zero : ∀ o < states, g 0 o = z o
  hasDerivAt : ∀ o < states, HasDerivAt (fun h => g h o) (z (L * states + o)) 0

lemma isLinear_laneCurve (states L : ℕ) : IsLinear V (IsLaneCurve (V := V) states L) where
  zero := ⟨fun _ _ => rfl, fun _ _ => hasDerivAt_const 0 0⟩
  add x x' g g' h h' := by
    refine ⟨fun o ho => ?_, fun o ho => ?_⟩
    · rw [Pi.add_apply, Pi.add_apply, Pi.add_apply, h.at_zero o ho, h'.at_zero o ho]
    · exact (h.hasDerivAt o ho).add (h'.hasDerivAt o ho)
  smul c x g h := by
    refine ⟨fun o ho => ?_, fun o ho => ?_⟩
    · rw [Pi.smul_apply, Pi.smul_apply, Pi.smul_apply, h.at_zero o ho]
    · exact (h.hasDerivAt o ho).const_smul c

variable {M : StanMath V E Unit} {spec : OdeSpec V} {A : OdeActivity} {states thetaSource : ℕ}

/-- The right-hand side on curves, for parameters that move along `th`. -/
def curveRhs (M : StanMath V E Unit) (spec : OdeSpec V) (th : V → ℕ → V) (t : V) (g : V → ℕ → V) :
    Except E (V → ℕ → V) :=
  .ok fun h => spec.prog.valueOr M spec.xrData t (g h) (th h)

/-- Parameters that move with velocity `τ`, of which lane `L` is the lane. -/
structure IsParameterCurve (spec : OdeSpec V) (A : OdeActivity) (states L : ℕ) (theta : ℕ → V)
    (th : V → ℕ → V) : Prop where
  at_zero : th 0 = theta
  pos : 0 < L
  hasDerivAt : ∀ l < spec.prog.nTh, HasDerivAt (fun h => th h l)
    (if A.yLanes states < L ∧ l = L - 1 - A.yLanes states then 1 else 0) 0

/-- A curve as a map into the finite vectors that the right-hand side reads. -/
lemma hasDerivAt_pair {L : ℕ} {theta z : ℕ → V} {th g : V → ℕ → V}
    (hth : IsParameterCurve spec A states L theta th) (hstates : spec.prog.nY = states)
    (hg : IsLaneCurve states L z g) :
    HasDerivAt (fun h => (restrict spec.prog.nY (g h), restrict spec.prog.nTh (th h)))
      (restrict spec.prog.nY fun o => z (L * states + o), restrict spec.prog.nTh fun l =>
        if A.yLanes states < L ∧ l = L - 1 - A.yLanes states then 1 else 0) 0 := by
  apply HasDerivAt.prodMk
  · exact hasDerivAt_pi.2 fun i => hg.hasDerivAt i (hstates ▸ i.isLt)
  · exact hasDerivAt_pi.2 fun l => hth.hasDerivAt l l.isLt

/-- Where a curve starts. -/
lemma pair_zero {L : ℕ} {theta z : ℕ → V} {th g : V → ℕ → V}
    (hth : IsParameterCurve spec A states L theta th) (hstates : spec.prog.nY = states)
    (hg : IsLaneCurve states L z g) :
    (restrict spec.prog.nY (g 0), restrict spec.prog.nTh (th 0)) =
      (restrict spec.prog.nY z, restrict spec.prog.nTh theta) := by
  rw [hth.at_zero]
  refine Prod.ext (funext fun i => ?_) rfl
  exact hg.at_zero i (hstates ▸ i.isLt)

/-- The derivative of a lane is the chain rule. -/
lemma laneDerivative_eq {L o : ℕ} (hpos : 0 < L) (f z : ℕ → V) (t : V) (y theta : ℕ → V) :
    laneDerivative A states f (spec.prog.jacobianY M spec.xrData t y theta)
        (spec.prog.jacobianTheta M spec.xrData t y theta) z L o =
      ∑ i ∈ Finset.range states, spec.prog.jacobianY M spec.xrData t y theta o i * z (L * states + i) +
        ∑ l ∈ Finset.range spec.prog.nTh, spec.prog.jacobianTheta M spec.xrData t y theta o l *
          (if A.yLanes states < L ∧ l = L - 1 - A.yLanes states then 1 else 0) := by
  rw [laneDerivative, if_neg (by omega), add_comm]
  congr 1
  rcases Nat.lt_or_ge (A.yLanes states) L with hlt | hle
  · rw [if_neg (by omega)]
    -- Only the lane's own parameter moves, and it counts when the program reads it.
    by_cases hread : L - 1 - A.yLanes states < spec.prog.nTh
    · rw [Finset.sum_eq_single (L - 1 - A.yLanes states)]
      · rw [if_pos ⟨hlt, rfl⟩, mul_one]
      · exact fun l _ hne => by rw [if_neg fun h => hne h.2, mul_zero]
      · exact fun hn => absurd (Finset.mem_range.2 hread) hn
    · rw [RhsProgram.jacobianTheta, if_neg hread, Finset.sum_eq_zero]
      intro l hl
      have hl := Finset.mem_range.1 hl
      rw [if_neg (by omega), mul_zero]
  · rw [if_pos hle, Finset.sum_eq_zero]
    intro l _
    rw [if_neg (by omega), mul_zero]

/-- The coupled system and the system on curves do alike where the right-hand side is
differentiable. -/
lemma coupled_tracks_curve {L : ℕ} {theta z : ℕ → V} {th g : V → ℕ → V} {t : V}
    (hth : IsParameterCurve spec A states L theta th) (hL : L < A.laneCount states thetaSource)
    (hstates : spec.prog.nY = states)
    (hdiff : spec.prog.DifferentiableAt M spec.xrData t z theta) (hg : IsLaneCurve states L z g) :
    Tracks (IsLaneCurve states L) (coupledRhs M spec A states thetaSource theta t z)
      (curveRhs M spec th t g) := by
  subst hstates
  obtain ⟨f, hf⟩ := hdiff.exists_value
  rw [coupledRhs, hf]
  have hzero : spec.prog.value M spec.xrData t (g 0) (th 0) = .ok f := by
    rw [hth.at_zero, ← hf]
    exact RhsProgram.value_congr (fun i hi => hg.at_zero i hi) (fun _ _ => rfl) _ _
  refine tracks_ok ⟨fun o ho => ?_, fun o ho => ?_⟩
  · have hcell := flatLanes_apply (laneDerivative A spec.prog.nY f
      (spec.prog.jacobianY M spec.xrData t z theta) (spec.prog.jacobianTheta M spec.xrData t z theta) z)
      (Nat.zero_lt_of_lt hL) ho
    rw [Nat.zero_mul, Nat.zero_add] at hcell
    dsimp only
    rw [hcell, RhsProgram.valueOr_of_ok hzero]
    rfl
  · dsimp only
    rw [flatLanes_apply _ hL ho, laneDerivative_eq hth.pos]
    have hpair := hasDerivAt_pair hth rfl hg
    have houter := hdiff.hasFDerivAt o ho
    rw [← pair_zero hth rfl hg] at houter
    have hchain := houter.comp_hasDerivAt 0 hpair
    rw [RhsProgram.linearMap_apply] at hchain
    refine hchain.congr_of_eventuallyEq (Filter.Eventually.of_forall fun h => ?_)
    exact (RhsProgram.outputAt_restrict spec.xrData t (g h) (th h) o).symm

/-- Near zero the curve stays where the right-hand side does not fail. -/
lemma eventually_value {L : ℕ} {theta z : ℕ → V} {th g : V → ℕ → V} {t : V}
    (hth : IsParameterCurve spec A states L theta th) (hstates : spec.prog.nY = states)
    (hdiff : spec.prog.DifferentiableAt M spec.xrData t z theta) (hg : IsLaneCurve states L z g) :
    ∀ᶠ h in 𝓝 (0 : V), ∃ f, spec.prog.value M spec.xrData t (g h) (th h) = .ok f := by
  have hcont := (hasDerivAt_pair hth hstates hg).continuousAt
  have hok := hdiff.ok
  rw [← pair_zero hth hstates hg] at hok
  filter_upwards [hcont.eventually hok] with h hf
  obtain ⟨f, hf⟩ := hf
  refine ⟨f, ?_⟩
  rwa [RhsProgram.value_congr (fun i hi => extend_restrict (g h) hi)
    fun l hl => extend_restrict (th h) hl] at hf

/-- Differentiability depends on the states. -/
lemma DifferentiableAt.congr {t : V} {y z theta : ℕ → V} (hstates : spec.prog.nY = states)
    (h : spec.prog.DifferentiableAt M spec.xrData t y theta) (hyz : ∀ o < states, z o = y o) :
    spec.prog.DifferentiableAt M spec.xrData t z theta := by
  have hy : ∀ i < spec.prog.nY, z i = y i := fun i hi => hyz i (hstates ▸ hi)
  have hres : restrict spec.prog.nY z = restrict spec.prog.nY y := funext fun i => hy i i.isLt
  constructor
  · rw [hres]
    exact h.ok
  · intro o ho
    rw [hres, RhsProgram.jacobianY_congr hy fun _ _ => rfl,
      RhsProgram.jacobianTheta_congr hy fun _ _ => rfl]
    exact h.hasFDerivAt o ho

end Curves

/-! ## The states at the output times -/

section Trajectory

variable (M : StanMath V E Unit) (O : StanOde V E) (spec : OdeSpec V)

/-- The exception of an observer that is called too often. -/
def tooMany (O : StanOde V E) : E := O.runtimeError "direct RK observer produced too many states"

/-- `f(t, y)` for given parameters. -/
def OdeSpec.field (theta : ℕ → V) (t : V) (y : ℕ → V) : Except E (ℕ → V) :=
  spec.prog.value M spec.xrData t y theta

/-- The states at the output times, the initial one first, for an integrator that makes the given
moves. -/
def OdeSpec.trajectory (moves : List (Move V)) (y0 theta : ℕ → V) : Except E (List (ℕ → V)) :=
  observed (spec.ts.length + 1) (tooMany O) (spec.field M theta) moves y0

/-- State `s` at output time `n`, where there is one. -/
def stateAt (r : Except E (List (ℕ → V))) (n s : ℕ) : V :=
  match r with
  | .ok ys => entry ys n s
  | .error _ => 0

/-- The right-hand side is differentiable wherever the integrator evaluates it. -/
def OdeSpec.DifferentiableAlong (moves : List (Move V)) (y0 theta : ℕ → V) : Prop :=
  Along (collecting (spec.ts.length + 1) (tooMany O) (spec.field M theta))
    (fun t y => spec.prog.DifferentiableAt M spec.xrData t y theta) moves [y0] []

variable {M O spec} {A : OdeActivity} {states thetaSource : ℕ}

/-- A coupled state with the given states. -/
def HasStates (states : ℕ) (y z : ℕ → V) : Prop := ∀ o < states, z o = y o

lemma isLinear_hasStates : IsLinear V (HasStates (V := V) states) where
  zero _ _ := rfl
  add x x' y y' h h' o ho := by rw [Pi.add_apply, Pi.add_apply, h o ho, h' o ho]
  smul c x y h o ho := by rw [Pi.smul_apply, Pi.smul_apply, h o ho]

/-- The states of the coupled system follow the right-hand side. -/
lemma field_tracks_coupled (A : OdeActivity) (thetaSource : ℕ) (hstates : spec.prog.nY = states) {theta y z : ℕ → V} {t : V}
    (hyz : HasStates states y z) :
    Tracks (HasStates states) (spec.field M theta t y)
      (coupledRhs M spec A states thetaSource theta t z) := by
  have hvalue : spec.field M theta t y = spec.prog.value M spec.xrData t z theta :=
    RhsProgram.value_congr (fun i hi => (hyz i (hstates ▸ hi)).symm) (fun _ _ => rfl) _ _
  rw [hvalue, coupledRhs]
  cases spec.prog.value M spec.xrData t z theta with
  | error e => exact tracks_error e
  | ok f =>
    refine tracks_ok fun o ho => ?_
    have hpos : 0 < A.laneCount states thetaSource := by
      unfold OdeActivity.laneCount
      omega
    have hcell := flatLanes_apply (laneDerivative A states f
      (spec.prog.jacobianY M spec.xrData t z theta) (spec.prog.jacobianTheta M spec.xrData t z theta) z)
      hpos ho
    rw [Nat.zero_mul, Nat.zero_add] at hcell
    exact hcell

/-- For one parameter, the system on curves follows the right-hand side. -/
lemma curve_tracks_field {th g : V → ℕ → V} {t h : V} {y : ℕ → V}
    (hok : ∃ f, spec.prog.value M spec.xrData t (g h) (th h) = .ok f) (hy : g h = y) :
    Tracks (fun g y => g h = y) (curveRhs M spec th t g) (spec.field M (th h) t y) := by
  obtain ⟨f, hf⟩ := hok
  rw [curveRhs, OdeSpec.field, ← hy, hf]
  exact tracks_ok (RhsProgram.valueOr_of_ok hf)

/-- A lane of the coupled system is the derivative of the states at the output times. -/
theorem hasDerivAt_lane {moves : List (Move V)} {L : ℕ} {y0 z₀ theta : ℕ → V} {th g₀ : V → ℕ → V}
    (hL : L < A.laneCount states thetaSource) (hstates : spec.prog.nY = states)
    (hdiff : spec.DifferentiableAlong M O moves y0 theta)
    (hth : IsParameterCurve spec A states L theta th) (hz : HasStates states y0 z₀)
    (hg : IsLaneCurve states L z₀ g₀) {zs : List (ℕ → V)}
    (hrun : observed (spec.ts.length + 1) (tooMany O) (coupledRhs M spec A states thetaSource theta)
      moves z₀ = .ok zs) (n : ℕ) {s : ℕ} (hs : s < states) :
    HasDerivAt (fun h => stateAt (spec.trajectory M O moves (g₀ h) (th h)) n s)
      (entry zs n (L * states + s)) 0 := by
  have hbase := simulates_collecting (D := fun t y => spec.prog.DifferentiableAt M spec.xrData t y theta)
    (f := spec.field M theta) (g := coupledRhs M spec A states thetaSource theta) isLinear_hasStates
    (spec.ts.length + 1) (tooMany O) fun t y z _ hyz =>
      field_tracks_coupled A thetaSource hstates hyz
  have hcoupled := along_of_tracks hbase
    (fun t z => spec.prog.DifferentiableAt M spec.xrData t z theta)
    (fun t y z hd hyz => DifferentiableAt.congr hstates hd hyz) hdiff (.cons hz .nil) .nil
  have htracks : ∀ t z g, spec.prog.DifferentiableAt M spec.xrData t z theta →
      IsLaneCurve states L z g → Tracks (IsLaneCurve states L)
        (coupledRhs M spec A states thetaSource theta t z) (curveRhs M spec th t g) :=
    fun t z g hd hg => coupled_tracks_curve hth hL hstates hd hg
  obtain ⟨gs, hgs, hcurves⟩ := (tracks_observed (isLinear_laneCurve states L) _ (tooMany O) htracks
    moves hcoupled hg).1 zs hrun
  have hcurve := along_of_tracks
    (simulates_collecting (isLinear_laneCurve states L) (spec.ts.length + 1) (tooMany O) htracks)
    (fun t g => ∀ᶠ h in 𝓝 (0 : V), ∃ f, spec.prog.value M spec.xrData t (g h) (th h) = .ok f)
    (fun t z g hd hg => eventually_value hth hstates hd hg) hcoupled (.cons hg .nil) .nil
  have hnear := eventually_along (D := fun h t (g : V → ℕ → V) =>
    ∃ f, spec.prog.value M spec.xrData t (g h) (th h) = .ok f) hcurve
  have hlane := ((isLinear_laneCurve states L).entry hcurves n).hasDerivAt s hs
  refine hlane.congr_of_eventuallyEq (hnear.mono fun h hh => ?_)
  have hpoint : IsLinear V fun (g : V → ℕ → V) (y : ℕ → V) => g h = y := by
    refine ⟨rfl, ?_, ?_⟩
    · rintro x x' _ _ rfl rfl
      rfl
    · rintro c x _ rfl
      rfl
  have hfollow := tracks_observed (f := curveRhs M spec th) (g := spec.field M (th h))
    (D := fun t (g : V → ℕ → V) => ∃ f, spec.prog.value M spec.xrData t (g h) (th h) = .ok f) hpoint
    (spec.ts.length + 1) (tooMany O) (fun t g y hok hy => curve_tracks_field hok hy) moves hh
    (y := g₀ h) rfl
  obtain ⟨ys, hys, hcells⟩ := hfollow.1 gs hgs
  dsimp only
  rw [OdeSpec.trajectory, hys, stateAt]
  exact congrFun (hpoint.entry hcells n).symm s

end Trajectory

end Stanli
