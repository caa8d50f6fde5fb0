import Stanli.Ode.Coupled

/-!
# The direct solve

`solveDirectRk` is `solve_direct_rk` of `ode.cpp`.  The integrator is Boost's: for given accepted
steps it is a list of moves (`Stepper.Move`), which call the coupled system at combinations of earlier
states and derivatives and hand states to the observer.

The storage that the calls share, the derivative vector a call overwrites and the flat outputs are
explicit.  `solveDirectRk_tracks`: the solve is a run of the coupled system without any of them.
-/

namespace Stanli

open Program Stepper

/-- What the kernel calls in Stan Math: the checks of `validate_direct_rk`, by function name, and the
exceptions. -/
structure StanOde (V E : Type) where
  runtimeError : String → E
  validate : String → OdeSpec V → List V → List V → Except E Unit

/-- What `ode_fwd` and `ode_bwd` see of a call: the values of the initial state and of the parameters,
the output and the scratch. -/
structure OdeCtx (V : Type) where
  y0 : List V
  theta : List V
  outLen : ℕ
  out : ℕ → V
  scratch : ℕ → V

/-- `direct_rk_function_name`. -/
def OdeSpec.functionName {V : Type} (spec : OdeSpec V) : String :=
  if spec.legacy then "integrate_ode_rk45"
  else if spec.solver = .ckrk then "ode_ckrk_tol" else "ode_rk45_tol"

/-- `direct_rk_shape_ok`: `limit` is the largest size. -/
def directRkShapeOk {V : Type} (limit : ℕ) (ctx : OdeCtx V) (spec : OdeSpec V)
    (A : OdeActivity) : Bool :=
  let states := ctx.y0.length
  let thetaSource := ctx.theta.length
  let width := states + thetaSource
  decide (0 < states) &&
  decide (spec.prog.nY = states ∧ spec.prog.nTh ≤ thetaSource ∧ spec.prog.nXr = spec.xr.length ∧
    spec.prog.outRegs.length = states ∧ spec.directRk.outRegs.length = states ∧
    (spec.ts.length ≠ 0 → states ≤ limit / spec.ts.length) ∧
    ctx.outLen = spec.ts.length * states ∧ states ≤ limit - thetaSource) &&
  decide (A.yLanes states ≤ limit - A.thetaLanes thetaSource ∧
    1 ≤ limit - A.yLanes states - A.thetaLanes thetaSource) &&
  decide (states ≤ limit / states ∧ states ≤ limit / A.laneCount states thetaSource ∧
    (thetaSource ≠ 0 → states ≤ limit / thetaSource) ∧ ctx.outLen ≤ limit / max 1 width)

/-! ## The observer -/

/-- What the observer of `solve_direct_rk` captures. -/
structure RkSink (V : Type) where
  initialObserved : Bool
  timeIndex : ℕ
  out : ℕ → V
  scratch : ℕ → V

section Solve

variable {V E : Type} [Field V] (M : StanMath V E Unit) (O : StanOde V E) (spec : OdeSpec V)
  (A : OdeActivity) (states thetaSource : ℕ)

/-- The stores into the Jacobian row of one output. -/
def rowStores (z : ℕ → V) (output outputState : ℕ) : List (ℕ × V) :=
  let width := states + thetaSource
  (if A.y then (List.range states).map fun lane =>
      (output * width + lane, z (states + states * lane + outputState)) else []) ++
    (if A.theta then (List.range thetaSource).map fun lane =>
      (output * width + states + lane,
        z (states + states * A.yLanes states + states * lane + outputState)) else [])

/-- One round of the observer's loop. -/
def RkSink.store (z : ℕ → V) (sink : RkSink V) (outputState : ℕ) : RkSink V :=
  let output := sink.timeIndex * states + outputState
  { sink with
    out := Function.update sink.out output (z outputState)
    scratch := Scatter.storeAll (rowStores A states thetaSource z output outputState) sink.scratch }

/-- The observer. -/
def RkSink.observe (sink : RkSink V) (z : ℕ → V) : Except E (RkSink V) :=
  if !sink.initialObserved then .ok { sink with initialObserved := true }
  else if spec.ts.length ≤ sink.timeIndex then
    .error (O.runtimeError "direct RK observer produced too many states")
  else
    let sink := (List.range states).foldl (RkSink.store A states thetaSource z) sink
    .ok { sink with timeIndex := sink.timeIndex + 1 }

/-! ## The solve -/

/-- The system and the observer that the integrator calls.  The state is the storage of the solve, the
vector that the next derivative overwrites, and what the observer captures. -/
def directSystem (theta : ℕ → V) :
    System V (ℕ → V) E (DirectRkWorkspace V × (ℕ → V) × RkSink V) where
  rhs s t z := (DirectRkSystem.call M O.runtimeError spec A states thetaSource theta s.1
    (A.coupledSize states thetaSource) z s.2.1 t).map fun r => (r.1, r.2, r.1, s.2.2)
  observe s z := (s.2.2.observe O spec A states thetaSource z).map fun sink => (s.1, s.2.1, sink)

/-- The initial coupled state: the states, and identity lanes. -/
def initialState (y0 : ℕ → V) : ℕ → V :=
  let state := Scatter.storeAll ((List.range states).map fun i => (i, y0 i)) fun _ => 0
  if A.y then
    Scatter.storeAll ((List.range states).map fun i => (states + states * i + i, 1)) state
  else state

/-- `solve_direct_rk`, for an integrator that makes the given moves. -/
def solveDirectRk (moves : List (Move V)) (ctx : OdeCtx V) : Except E (OdeCtx V) :=
  let states := ctx.y0.length
  let thetaSource := ctx.theta.length
  let width := states + thetaSource
  (O.validate spec.functionName spec ctx.y0 ctx.theta).bind fun _ =>
    if ctx.outLen ≠ spec.ts.length * states then
      .error (O.runtimeError "OP_ODE output shape does not match solve times")
    else
      let workspace : DirectRkWorkspace V :=
        ⟨fun _ => 0, fun _ => 0, fun _ => 0, fun _ => 0, fun _ => 0⟩
      let scratch := fun c => if c < ctx.outLen * width then 0 else ctx.scratch c
      (run (directSystem M O spec A states thetaSource fun i => ctx.theta.getD i 0) moves
        [initialState A states fun i => ctx.y0.getD i 0]
        (workspace, fun _ => 0, ⟨false, 0, ctx.out, scratch⟩)).bind fun r =>
          if r.2.2.2.timeIndex ≠ spec.ts.length then
            .error (O.runtimeError "direct RK observer produced too few states")
          else .ok { ctx with out := r.2.2.2.out, scratch := r.2.2.2.scratch }

/-! ## The coupled system without storage -/

/-- The flat state with the given lanes. -/
def flatLanes (g : ℕ → ℕ → V) (c : ℕ) : V :=
  if c < A.coupledSize states thetaSource then g (c / states) (c % states) else 0

/-- The coupled system, as a function. -/
def coupledRhs (theta : ℕ → V) (t : V) (z : ℕ → V) : Except E (ℕ → V) :=
  (spec.prog.value M spec.xrData t z theta).map fun f => flatLanes A states thetaSource
    (laneDerivative A states f (spec.prog.jacobianY M spec.xrData t z theta)
      (spec.prog.jacobianTheta M spec.xrData t z theta) z)

/-- Column `c` of the Jacobian row of state `s`: the lane of the column, and zero where the column is
inactive. -/
def column (z : ℕ → V) (s c : ℕ) : V :=
  if c < states then if A.y then z ((1 + c) * states + s) else 0
  else if A.theta then z ((1 + A.yLanes states + (c - states)) * states + s) else 0

/-- The observer has captured the states of a list, the first of which it skipped. -/
structure RkSink.Holds (sink : RkSink V) (zs : List (ℕ → V)) : Prop where
  initialObserved : sink.initialObserved = !zs.isEmpty
  timeIndex : sink.timeIndex = zs.length - 1
  out : ∀ n < sink.timeIndex, ∀ s < states, sink.out (n * states + s) = entry zs (n + 1) s
  scratch : ∀ n < spec.ts.length, ∀ s < states, ∀ c < states + thetaSource,
    sink.scratch ((n * states + s) * (states + thetaSource) + c) =
      if n < sink.timeIndex then column A states (entry zs (n + 1)) s c else 0

end Solve

/-! ## What the observer keeps -/

section Observer

variable {V E : Type} [Field V] {O : StanOde V E} {spec : OdeSpec V} {A : OdeActivity}
  {states thetaSource : ℕ}

/-- Whether column `c` belongs to an active input. -/
def activeColumn (A : OdeActivity) (states c : ℕ) : Bool := if c < states then A.y else A.theta

lemma column_of_inactive {c : ℕ} (h : activeColumn A states c = false) (z : ℕ → V) (s : ℕ) :
    column A states z s c = 0 := by
  unfold activeColumn at h
  unfold column
  by_cases hc : c < states
  · rw [if_pos hc] at h ⊢
    rw [h]
    rfl
  · rw [if_neg hc] at h ⊢
    rw [h]
    rfl

/-- The stores of a Jacobian row: one for each active column. -/
lemma mem_rowStores_iff {z : ℕ → V} {output s : ℕ} {e : ℕ × V} :
    e ∈ rowStores A states thetaSource z output s ↔ ∃ c < states + thetaSource,
      activeColumn A states c = true ∧
        e = (output * (states + thetaSource) + c, column A states z s c) := by
  have hy : ∀ l < states, A.y = true →
      column A states z s l = z (states + states * l + s) := by
    intro l hl hy
    rw [column, if_pos hl, if_pos hy, Nat.add_mul, Nat.one_mul, Nat.mul_comm l]
  have htheta : ∀ l, A.theta = true → column A states z s (states + l) =
      z (states + states * A.yLanes states + states * l + s) := by
    intro l htheta
    rw [column, if_neg (by omega), if_pos htheta, Nat.add_sub_cancel_left, Nat.add_mul, Nat.add_mul,
      Nat.one_mul, Nat.mul_comm l, Nat.mul_comm (A.yLanes states)]
  unfold rowStores
  dsimp only
  rw [List.mem_append]
  constructor
  · rintro (he | he)
    · split at he
      · rename_i hact
        obtain ⟨l, hl, rfl⟩ := List.mem_map.1 he
        have hl := List.mem_range.1 hl
        refine ⟨l, by omega, (if_pos hl).trans hact, ?_⟩
        rw [hy l hl hact]
      · cases he
    · split at he
      · rename_i hact
        obtain ⟨l, hl, rfl⟩ := List.mem_map.1 he
        have hl := List.mem_range.1 hl
        refine ⟨states + l, by omega, (if_neg (by omega)).trans hact, ?_⟩
        rw [htheta l hact, Nat.add_assoc]
      · cases he
  · rintro ⟨c, hc, hact, rfl⟩
    unfold activeColumn at hact
    rcases Nat.lt_or_ge c states with hlt | hge
    · rw [if_pos hlt] at hact
      rw [if_pos hact, hy c hlt hact]
      exact Or.inl (List.mem_map.2 ⟨c, List.mem_range.2 hlt, rfl⟩)
    · rw [if_neg (by omega)] at hact
      obtain ⟨l, rfl⟩ := Nat.exists_eq_add_of_le hge
      rw [if_pos hact, htheta l hact, ← Nat.add_assoc]
      exact Or.inr (List.mem_map.2 ⟨l, List.mem_range.2 (by omega), rfl⟩)

/-- One Jacobian row of the scratch, and the others as they were. -/
lemma storeAll_rowStores (z m : ℕ → V) (output o s : ℕ) {c : ℕ} (hc : c < states + thetaSource) :
    Scatter.storeAll (rowStores A states thetaSource z output s) m
        (o * (states + thetaSource) + c) =
      if o = output ∧ activeColumn A states c = true then column A states z s c
      else m (o * (states + thetaSource) + c) := by
  split
  · rename_i h
    obtain ⟨rfl, hact⟩ := h
    apply Scatter.storeAll_of_mem
    · exact mem_rowStores_iff.2 ⟨c, hc, hact, rfl⟩
    · intro e he hcell
      obtain ⟨c', -, -, rfl⟩ := mem_rowStores_iff.1 he
      obtain rfl : c' = c := by simpa using hcell
      rfl
  · rename_i h
    apply Scatter.storeAll_of_ne
    intro e he hcell
    obtain ⟨c', hc', hact, rfl⟩ := mem_rowStores_iff.1 he
    obtain ⟨rfl, rfl⟩ := Scatter.row_eq_of_add_eq hc' hc hcell
    exact h ⟨rfl, hact⟩

/-- The first rounds of the observer's loop fill the outputs of the first states, and their rows. -/
lemma foldl_store (A : OdeActivity) (states thetaSource : ℕ) (z : ℕ → V) (sink : RkSink V) (k : ℕ)
    (hk : k ≤ states) :
    let sink' := (List.range k).foldl (RkSink.store A states thetaSource z) sink
    sink'.initialObserved = sink.initialObserved ∧ sink'.timeIndex = sink.timeIndex ∧
      (∀ n s, s < states → sink'.out (n * states + s) =
        if n = sink.timeIndex ∧ s < k then z s else sink.out (n * states + s)) ∧
      ∀ n s c, s < states → c < states + thetaSource →
        sink'.scratch ((n * states + s) * (states + thetaSource) + c) =
          if (n = sink.timeIndex ∧ s < k) ∧ activeColumn A states c = true then column A states z s c
          else sink.scratch ((n * states + s) * (states + thetaSource) + c) := by
  induction k with
  | zero =>
    refine ⟨rfl, rfl, fun n s _ => (if_neg (by omega)).symm, fun n s c _ _ => (if_neg ?_).symm⟩
    rintro ⟨⟨-, h⟩, -⟩
    omega
  | succ k ih =>
    obtain ⟨hobserved, hindex, hout, hscratch⟩ := ih (by omega)
    simp only [List.range_succ, List.foldl_append, List.foldl_cons, List.foldl_nil]
    have hkey : ∀ n s, s < states → (n * states + s = sink.timeIndex * states + k ↔
        n = sink.timeIndex ∧ s = k) := by
      intro n s hs
      constructor
      · exact Scatter.row_eq_of_add_eq hs (by omega)
      · rintro ⟨rfl, rfl⟩
        rfl
    refine ⟨hobserved, hindex, fun n s hs => ?_, fun n s c hs hc => ?_⟩
    · change Function.update _ _ _ _ = _
      rw [Function.update_apply, hout n s hs, hindex]
      rcases eq_or_ne s k with rfl | hne
      · rw [if_congr (hkey n s hs) rfl rfl]
        rcases eq_or_ne n sink.timeIndex with rfl | hn
        · rw [if_pos ⟨rfl, rfl⟩, if_pos ⟨rfl, Nat.lt_succ_self s⟩]
        · rw [if_neg fun h => hn h.1, if_neg fun h => hn h.1, if_neg fun h => hn h.1]
      · rw [if_neg fun h => hne ((hkey n s hs).1 h).2]
        exact if_congr (by omega) rfl rfl
    · change Scatter.storeAll _ _ _ = _
      rw [storeAll_rowStores _ _ _ _ _ hc, hscratch n s c hs hc, hindex]
      rcases eq_or_ne s k with rfl | hne
      · rcases eq_or_ne n sink.timeIndex with rfl | hn
        · rw [if_neg (show ¬((sink.timeIndex = sink.timeIndex ∧ s < s) ∧ _) from fun h =>
            absurd h.1.2 (lt_irrefl s))]
          exact if_congr (and_congr_left' ⟨fun _ => ⟨rfl, Nat.lt_succ_self s⟩, fun _ => rfl⟩) rfl rfl
        · rw [if_neg fun h => hn ((hkey n s hs).1 h.1).1, if_neg fun h => hn h.1.1,
            if_neg fun h => hn h.1.1]
      · rw [if_neg fun h => hne ((hkey n s hs).1 h.1).2]
        exact if_congr (and_congr_left' (by omega)) rfl rfl

/-- Two coupled states that agree in every lane. -/
def SameLanes (A : OdeActivity) (states thetaSource : ℕ) (z z' : ℕ → V) : Prop :=
  ∀ L < A.laneCount states thetaSource, ∀ o < states, z (L * states + o) = z' (L * states + o)

omit [Field V] in
lemma SameLanes.state {z z' : ℕ → V} (h : SameLanes A states thetaSource z z') {o : ℕ}
    (ho : o < states) : z o = z' o := by
  have h0 := h 0 (by unfold OdeActivity.laneCount; omega) o ho
  rwa [Nat.zero_mul, Nat.zero_add] at h0

lemma SameLanes.column {z z' : ℕ → V} (h : SameLanes A states thetaSource z z') {s c : ℕ}
    (hs : s < states) (hc : c < states + thetaSource) :
    column A states z s c = column A states z' s c := by
  unfold Stanli.column
  split
  · split
    · rename_i hlt hy
      have hlanes : A.yLanes states = states := if_pos hy
      exact h _ (by unfold OdeActivity.laneCount; omega) s hs
    · rfl
  · split
    · rename_i hge htheta
      have hlanes : A.thetaLanes thetaSource = thetaSource := if_pos htheta
      exact h _ (by unfold OdeActivity.laneCount; omega) s hs
    · rfl

/-- The observer keeps what a list of observed states says. -/
lemma observe_tracks {sink : RkSink V} {zs : List (ℕ → V)}
    (h : sink.Holds spec A states thetaSource zs) {z z' : ℕ → V}
    (hz : SameLanes A states thetaSource z z') :
    Tracks (RkSink.Holds spec A states thetaSource) (sink.observe O spec A states thetaSource z)
      (if zs.length < spec.ts.length + 1 then .ok (zs ++ [z'])
        else .error (O.runtimeError "direct RK observer produced too many states")) := by
  have hindex := h.timeIndex
  unfold RkSink.observe
  rw [h.initialObserved]
  cases zs with
  | nil =>
    have hflag : (!!([] : List (ℕ → V)).isEmpty) = true := rfl
    have hroom : ([] : List (ℕ → V)).length < spec.ts.length + 1 := Nat.succ_pos _
    rw [if_pos hflag, if_pos hroom]
    refine tracks_ok ⟨rfl, hindex, fun n hn => ?_, fun n hn s hs c hc => ?_⟩
    · have hzero : sink.timeIndex = 0 := hindex
      change n < sink.timeIndex at hn
      omega
    · dsimp only
      rw [h.scratch n hn s hs c hc, hindex]
      rfl
  | cons z₀ zs =>
    have hlen : sink.timeIndex = zs.length := hindex
    rw [if_neg (by simp), List.length_cons]
    by_cases hfull : spec.ts.length ≤ sink.timeIndex
    · rw [if_pos hfull, if_neg (by omega)]
      exact tracks_error _
    · rw [if_neg hfull, if_pos (by omega)]
      obtain ⟨hobserved, hindex', hout, hscratch⟩ :=
        foldl_store A states thetaSource z sink states le_rfl
      have hold : ∀ n < zs.length,
          entry (z₀ :: zs ++ [z']) (n + 1) = entry (z₀ :: zs) (n + 1) := by
        intro n hn
        unfold entry
        rw [List.getD_append _ _ _ _ (by rw [List.length_cons]; omega)]
      have hnew : entry (z₀ :: zs ++ [z']) (sink.timeIndex + 1) = z' := by
        unfold entry
        rw [hlen, List.getD_append_right _ _ _ _ (by rw [List.length_cons]), List.length_cons, Nat.sub_self]
        rfl
      refine tracks_ok ⟨?_, ?_, fun n hn s hs => ?_, fun n hn s hs c hc => ?_⟩
      · exact hobserved.trans h.initialObserved
      · dsimp only
        rw [hindex', hlen]
        simp
      · dsimp only at hn ⊢
        rw [hindex'] at hn
        rw [hout n s hs]
        rcases eq_or_ne n sink.timeIndex with rfl | hne
        · rw [if_pos ⟨rfl, hs⟩, hnew]
          exact hz.state hs
        · rw [if_neg fun h => hne h.1, h.out n (by omega) s hs, hold n (by omega)]
      · dsimp only
        rw [hindex', hscratch n s c hs hc]
        rcases eq_or_ne n sink.timeIndex with rfl | hne
        · rw [if_pos (Nat.lt_succ_self _), hnew, h.scratch _ hn s hs c hc, if_neg (lt_irrefl _),
            hz.column hs hc]
          cases hact : activeColumn A states c with
          | true => rw [if_pos ⟨⟨rfl, hs⟩, rfl⟩]
          | false => rw [if_neg (by simp), column_of_inactive hact]
        · rw [if_neg fun h => hne h.1.1, h.scratch n hn s hs c hc]
          rcases Nat.lt_or_ge n sink.timeIndex with hlt | hge
          · rw [if_pos hlt, if_pos (by omega), hold n (by omega)]
          · rw [if_neg (by omega), if_neg (by omega)]

end Observer

/-! ## The direct solve is a run of the coupled system -/

section Direct

variable {V E : Type} [Field V] {M : StanMath V E Unit} {O : StanOde V E} {spec : OdeSpec V}
  {A : OdeActivity} {states thetaSource : ℕ}

lemma flatLanes_apply (g : ℕ → ℕ → V) {L o : ℕ} (hL : L < A.laneCount states thetaSource)
    (ho : o < states) : flatLanes A states thetaSource g (L * states + o) = g L o := by
  have hpos : 0 < states := by omega
  have hsize : L * states + o < A.coupledSize states thetaSource := by
    unfold OdeActivity.coupledSize
    calc L * states + o < (L + 1) * states := by rw [Nat.add_mul, Nat.one_mul]; omega
      _ ≤ states * A.laneCount states thetaSource := by
        rw [Nat.mul_comm states]
        exact Nat.mul_le_mul_right _ hL
  rw [flatLanes, if_pos hsize, Nat.mul_comm, Nat.mul_add_div hpos, Nat.mul_add_mod,
    Nat.div_eq_of_lt ho, Nat.mod_eq_of_lt ho, Nat.add_zero]

lemma isLinear_sameLanes :
    IsLinear V (SameLanes (V := V) A states thetaSource) where
  zero _ _ _ _ := rfl
  add x x' y y' h h' L hL o ho := by
    rw [Pi.add_apply, Pi.add_apply, h L hL o ho, h' L hL o ho]
  smul c x y h L hL o ho := by
    rw [Pi.smul_apply, Pi.smul_apply, h L hL o ho]

/-- Lanes with the same cells have the same derivative. -/
lemma SameLanes.derivative {z z' : ℕ → V} (h : SameLanes A states thetaSource z z') (f : ℕ → V)
    (jY jTheta : ℕ → ℕ → V) {L : ℕ} (hL : L < A.laneCount states thetaSource) (o : ℕ) :
    laneDerivative A states f jY jTheta z L o = laneDerivative A states f jY jTheta z' L o := by
  unfold laneDerivative
  rw [Finset.sum_congr rfl fun i hi => by rw [h L hL i (Finset.mem_range.1 hi)]]

variable (haccept : spec.prog.makeRhsAdjointProgram M.toRegistry = .ok spec.directRk)
  (hinit : IslandProg.InitialisesReads M.toRegistry spec.prog.island)
  (hderives : IslandProg.Derives M spec.prog.island spec.directRk (· ∈ spec.prog.island.activeIns))
  (hstates : spec.prog.nY = states) (hsource : spec.prog.nTh ≤ thetaSource)
  (hout : spec.prog.outRegs.length = states)

include haccept hinit hderives hstates hsource hout

/-- The system with its storage does what the coupled system does without. -/
lemma simulates_direct (theta : ℕ → V) :
    Simulates (SameLanes A states thetaSource)
      (fun s zs => s.2.2.Holds spec A states thetaSource zs) (fun _ _ => True)
      (directSystem M O spec A states thetaSource theta)
      (collecting (spec.ts.length + 1) (O.runtimeError "direct RK observer produced too many states")
        (coupledRhs M spec A states thetaSource theta)) where
  linear := isLinear_sameLanes
  rhs t z z' s zs _ hz hs := by
    have hvalue : spec.prog.value M spec.xrData t z theta = spec.prog.value M spec.xrData t z' theta :=
      RhsProgram.value_congr (fun i hi => hz.state (hstates ▸ hi)) (fun _ _ => rfl) spec.xrData t
    have hcall := DirectRkSystem.call_tracks haccept hinit hderives hstates hsource hout
      O.runtimeError A theta s.1 z s.2.1 t
    rw [hvalue, RhsProgram.jacobianY_congr (fun i hi => hz.state (hstates ▸ hi)) (fun _ _ => rfl),
      RhsProgram.jacobianTheta_congr (fun i hi => hz.state (hstates ▸ hi)) (fun _ _ => rfl)] at hcall
    have hmap := hcall.map (f := fun r => (r.1, r.2, r.1, s.2.2)) (g := fun f => (flatLanes A states thetaSource (laneDerivative A states f
        (spec.prog.jacobianY M spec.xrData t z' theta)
        (spec.prog.jacobianTheta M spec.xrData t z' theta) z'), zs))
      (fun r r' => SameLanes A states thetaSource r.1 r'.1 ∧
        r.2.2.2.Holds spec A states thetaSource r'.2) fun r f hr => ⟨fun L hL o ho => ?_, hs⟩
    · simp only [directSystem, collecting, coupledRhs]
      rw [map_map]
      exact hmap
    · dsimp only
      rw [flatLanes_apply _ hL ho, hr L hL o ho]
      exact hz.derivative _ _ _ hL o
  observe z z' s zs hz hs := by
    have hobserve := observe_tracks (O := O) hs hz
    simp only [directSystem, collecting]
    have hmap := hobserve.map_left (f := fun sink => (s.1, s.2.1, sink))
      (fun s zs => s.2.2.Holds spec A states thetaSource zs) fun _ _ h => h
    split at hmap
    · rw [if_pos ‹_›]
      exact hmap
    · rw [if_neg ‹_›]
      exact hmap

end Direct

section Solution

variable {V E : Type} [Field V] (M : StanMath V E Unit) (O : StanOde V E) (spec : OdeSpec V)

/-- The states a system is in at the times of the output, the initial one first: what an integrator
that makes the given moves observes, and the checks around it. -/
def solution (rhs : V → (ℕ → V) → Except E (ℕ → V)) (moves : List (Move V)) (y0 theta : List V)
    (z : ℕ → V) : Except E (List (ℕ → V)) :=
  (O.validate spec.functionName spec y0 theta).bind fun _ =>
    (observed (spec.ts.length + 1) (O.runtimeError "direct RK observer produced too many states") rhs
      moves z).bind fun zs =>
        if zs.length - 1 ≠ spec.ts.length then
          .error (O.runtimeError "direct RK observer produced too few states")
        else .ok zs

variable {M O spec} {A : OdeActivity} {limit : ℕ} {ctx : OdeCtx V}

omit [Field V] in
/-- What an accepted shape says. -/
lemma directRkShapeOk_iff_shape (h : directRkShapeOk limit ctx spec A = true) :
    spec.prog.nY = ctx.y0.length ∧ spec.prog.nTh ≤ ctx.theta.length ∧
      spec.prog.outRegs.length = ctx.y0.length ∧ ctx.outLen = spec.ts.length * ctx.y0.length := by
  simp only [directRkShapeOk, Bool.and_eq_true, decide_eq_true_eq] at h
  obtain ⟨⟨⟨-, hY, hTh, -, hout, -, -, hlen, -⟩, -⟩, -⟩ := h
  exact ⟨hY, hTh, hout, hlen⟩

/-- A context holds the outputs of a list of coupled states. -/
def OdeCtx.HoldsStates (ctx ctx' : OdeCtx V) (spec : OdeSpec V) (A : OdeActivity)
    (zs : List (ℕ → V)) : Prop :=
  ∀ n < spec.ts.length, ∀ s < ctx.y0.length,
    ctx'.out (n * ctx.y0.length + s) = entry zs (n + 1) s ∧
      ∀ c < ctx.y0.length + ctx.theta.length,
        ctx'.scratch ((n * ctx.y0.length + s) * (ctx.y0.length + ctx.theta.length) + c) =
          column A ctx.y0.length (entry zs (n + 1)) s c

/-- `solve_direct_rk` runs the coupled system: it fails as that does, and leaves the observed states and
their lanes in the output and the scratch. -/
theorem solveDirectRk_tracks
    (haccept : spec.prog.makeRhsAdjointProgram M.toRegistry = .ok spec.directRk)
    (hinit : IslandProg.InitialisesReads M.toRegistry spec.prog.island)
    (hderives : IslandProg.Derives M spec.prog.island spec.directRk (· ∈ spec.prog.island.activeIns))
    (hshape : directRkShapeOk limit ctx spec A = true) (moves : List (Move V)) :
    Tracks (fun ctx' zs => ctx.HoldsStates ctx' spec A zs) (solveDirectRk M O spec A moves ctx)
      (solution O spec (coupledRhs M spec A ctx.y0.length ctx.theta.length fun i => ctx.theta.getD i 0)
        moves ctx.y0 ctx.theta (initialState A ctx.y0.length fun i => ctx.y0.getD i 0)) := by
  obtain ⟨hY, hTh, hout, hlen⟩ := directRkShapeOk_iff_shape hshape
  unfold solveDirectRk solution
  cases O.validate spec.functionName spec ctx.y0 ctx.theta with
  | error e => exact tracks_error e
  | ok u =>
    change Tracks _ (if ctx.outLen ≠ spec.ts.length * ctx.y0.length then _ else _) _
    rw [if_neg (not_not.2 hlen)]
    set scratch := fun c => if c < ctx.outLen * (ctx.y0.length + ctx.theta.length) then (0 : V)
      else ctx.scratch c with hscratch
    have hholds : RkSink.Holds spec A ctx.y0.length ctx.theta.length
        ⟨false, 0, ctx.out, scratch⟩ [] := by
      refine ⟨rfl, rfl, fun n hn => absurd hn (Nat.not_lt_zero n), fun n hn s hs c hc => ?_⟩
      rw [if_neg (Nat.not_lt_zero n), hscratch]
      refine if_pos ?_
      -- The fill covers the rows of all outputs.
      have hrow : n * ctx.y0.length + s + 1 ≤ ctx.outLen := by
        rw [hlen]
        calc n * ctx.y0.length + s + 1 ≤ (n + 1) * ctx.y0.length := by rw [Nat.add_mul]; omega
          _ ≤ spec.ts.length * ctx.y0.length := Nat.mul_le_mul_right _ hn
      calc (n * ctx.y0.length + s) * (ctx.y0.length + ctx.theta.length) + c
          < (n * ctx.y0.length + s + 1) * (ctx.y0.length + ctx.theta.length) := by
            rw [Nat.add_mul (n * ctx.y0.length + s) 1]; omega
        _ ≤ ctx.outLen * (ctx.y0.length + ctx.theta.length) := Nat.mul_le_mul_right _ hrow
    have hrun := tracks_run (simulates_direct (O := O) (A := A) haccept hinit hderives hY hTh hout
        fun i => ctx.theta.getD i 0) moves
      [initialState A ctx.y0.length fun i => ctx.y0.getD i 0]
      [initialState A ctx.y0.length fun i => ctx.y0.getD i 0]
      (⟨fun _ => 0, fun _ => 0, fun _ => 0, fun _ => 0, fun _ => 0⟩, fun _ => 0,
        ⟨false, 0, ctx.out, scratch⟩) []
      (along_of_forall (fun _ _ => trivial) _ _ _) (.cons (fun _ _ _ _ => rfl) .nil) hholds
    refine (hrun.map_right (g := Prod.snd)
      (fun r zs => r.2.2.2.Holds spec A ctx.y0.length ctx.theta.length zs) fun _ _ h => h.2).bind fun r zs _ _ hr => ?_
    rw [hr.timeIndex]
    by_cases hcount : zs.length - 1 = spec.ts.length
    · rw [if_neg (not_not.2 hcount), if_neg (not_not.2 hcount)]
      refine tracks_ok fun n hn s hs => ⟨hr.out n (by rw [hr.timeIndex]; omega) s hs, fun c hc => ?_⟩
      dsimp only
      rw [hr.scratch n hn s hs c hc, if_pos (by rw [hr.timeIndex]; omega)]
    · rw [if_pos hcount, if_pos hcount]
      exact tracks_error _

end Solution

end Stanli
