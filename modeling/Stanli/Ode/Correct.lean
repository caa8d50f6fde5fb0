import Stanli.Ode.Sensitivity

/-!
# The direct path

`odeFwdNested` is the nested-tape branch of `ode_fwd_typed` and `odeBwd` is `ode_bwd`, for calls with
fixed times.

`solveDirectRk_sensitivities` puts the parts together: the coupled system is the one of the right-hand
side, the solve leaves the states and their partial derivatives in the layout the nested-tape branch
fills, and the backward reads that layout.
-/

namespace Stanli

open Program Stepper Topology

/-! ## The nested-tape branch -/

/-- One solution element on the nested tape: a node with precomputed gradients. -/
structure OdeTapeNode (V : Type) where
  val : V
  y : ℕ → V
  theta : ℕ → V

/-- The adjoints of the inputs, and the Jacobian harvested so far. -/
structure OdeTape (V : Type) where
  jacobian : ℕ → V
  yAdj : ℕ → V
  thetaAdj : ℕ → V

section Layout

variable {V : Type} [Field V] (A : OdeActivity) (states thetaSource : ℕ)

/-- The columns of one input: its adjoints, which are cleared, or zeros when it is inactive. -/
def harvestInput (active : Bool) (start len : ℕ) (adj jacobian : ℕ → V) : (ℕ → V) × (ℕ → V) :=
  (Scatter.storeAll ((List.range len).map fun i => (start + i, if active then adj i else 0)) jacobian,
    if active then Scatter.storeAll ((List.range len).map fun i => (i, 0)) adj else adj)

/-- One round of the harvest: chain one node with adjoint one, and read the inputs. -/
def harvestRow (node : OdeTapeNode V) (o : ℕ) (tape : OdeTape V) : OdeTape V :=
  let width := states + thetaSource
  let yAdj := if A.y then fun i => tape.yAdj i + 1 * node.y i else tape.yAdj
  let thetaAdj := if A.theta then fun i => tape.thetaAdj i + 1 * node.theta i else tape.thetaAdj
  let y := harvestInput A.y (o * width) states yAdj tape.jacobian
  let theta := harvestInput A.theta (o * width + states) thetaSource thetaAdj y.1
  ⟨theta.1, y.2, theta.2⟩

/-- The nested-tape branch of `ode_fwd_typed`, from the solution that Stan Math returns. -/
def odeFwdNested (times : ℕ) (solv : ℕ → ℕ → OdeTapeNode V) (ctx : OdeCtx V) : OdeCtx V :=
  { ctx with
    out := Scatter.storeAll ((List.range times).flatMap fun n =>
      (List.range states).map fun k => (n * states + k, (solv n k).val)) ctx.out
    scratch := ((List.range ctx.outLen).foldr (fun o tape =>
      harvestRow A states thetaSource (solv (o / states) (o % states)) o tape)
        ⟨ctx.scratch, fun _ => 0, fun _ => 0⟩).jacobian }

/-- `ode_bwd`: `present` are the inputs that have an adjoint. -/
def odeBwd (present : OdeActivity) (outLen : ℕ) (jacobian outAdj yAdj thetaAdj : ℕ → V) :
    (ℕ → V) × (ℕ → V) :=
  let yActive := A.y && present.y
  let thetaActive := A.theta && present.theta
  let width := states + thetaSource
  if !yActive && !thetaActive then (yAdj, thetaAdj)
  else
    (List.range outLen).foldr (fun o adj =>
      let a := outAdj o
      (if yActive then
          addAll adj.1 ((List.range states).map fun i => (i, a * jacobian (o * width + i)))
        else adj.1,
        if thetaActive then
          addAll adj.2 ((List.range thetaSource).map fun i =>
            (i, a * jacobian (o * width + states + i)))
        else adj.2)) (yAdj, thetaAdj)

variable {A states thetaSource}

/-- Column `c` of the Jacobian row of a node. -/
def OdeTapeNode.column (node : OdeTapeNode V) (A : OdeActivity) (states c : ℕ) : V :=
  if c < states then if A.y then node.y c else 0
  else if A.theta then node.theta (c - states) else 0

/-- One row of the harvest, from adjoints that are clear. -/
lemma harvestRow_spec (node : OdeTapeNode V) (o : ℕ) {tape : OdeTape V}
    (hy : ∀ i < states, tape.yAdj i = 0) (htheta : ∀ i < thetaSource, tape.thetaAdj i = 0) :
    let tape' := harvestRow A states thetaSource node o tape
    (∀ i < states, tape'.yAdj i = 0) ∧ (∀ i < thetaSource, tape'.thetaAdj i = 0) ∧
      ∀ o' c, c < states + thetaSource → tape'.jacobian (o' * (states + thetaSource) + c) =
        if o' = o then node.column A states c else tape.jacobian (o' * (states + thetaSource) + c) := by
  have hclear : ∀ {active : Bool} {len : ℕ} {adj p : ℕ → V}, (∀ i < len, adj i = 0) → ∀ start J,
      ∀ i < len, (harvestInput active start len
        (if active then fun i => adj i + 1 * p i else adj) J).2 i = 0 := by
    intro active len adj p hadj start J i hi
    cases active with
    | false => exact hadj i hi
    | true =>
      have hrun := Scatter.storeAll_run (fun i => adj i + 1 * p i) (fun _ => 0) 0 len i
      simp only [Nat.zero_add] at hrun
      exact hrun.trans (if_pos ⟨Nat.zero_le _, hi⟩)
  have hchain : ∀ {active : Bool} {adj p : ℕ → V} {i : ℕ}, adj i = 0 →
      (if active then (if active then fun i => adj i + 1 * p i else adj) i else 0) =
        if active then p i else 0 := by
    intro active adj p i hadj
    cases active with
    | false => rfl
    | true => simp [hadj]
  refine ⟨hclear hy 0 tape.jacobian, hclear htheta 0 tape.jacobian, fun o' c hc => ?_⟩
  unfold harvestRow harvestInput
  dsimp only
  rw [Scatter.storeAll_rowPart _ _ le_rfl hc, Scatter.storeAll_row _ _ (Nat.le_add_right ..) hc,
    OdeTapeNode.column]
  rcases eq_or_ne o' o with rfl | hne
  · rcases Nat.lt_or_ge c states with hlt | hge
    · rw [if_neg (by omega), if_pos ⟨rfl, hlt⟩, if_pos rfl, if_pos hlt]
      exact hchain (hy c hlt)
    · rw [if_pos ⟨rfl, hge, hc⟩, if_pos rfl, if_neg (show ¬c < states by omega)]
      exact hchain (htheta (c - states) (by omega))
  · rw [if_neg fun h => hne h.1, if_neg fun h => hne h.1, if_neg hne]

/-- The harvest fills a row for each node. -/
lemma foldr_harvestRow (nodes : ℕ → OdeTapeNode V) (n : ℕ) (tape : OdeTape V)
    (hy : ∀ i < states, tape.yAdj i = 0) (htheta : ∀ i < thetaSource, tape.thetaAdj i = 0)
    {o c : ℕ} (hc : c < states + thetaSource) :
    ((List.range n).foldr (fun o tape => harvestRow A states thetaSource (nodes o) o tape) tape).jacobian
        (o * (states + thetaSource) + c) =
      if o < n then (nodes o).column A states c
      else tape.jacobian (o * (states + thetaSource) + c) := by
  induction n generalizing tape with
  | zero => rfl
  | succ n ih =>
    obtain ⟨hy', htheta', hrow⟩ := harvestRow_spec (A := A) (nodes n) n hy htheta
    rw [List.range_succ, List.foldr_append, List.foldr_cons, List.foldr_nil, ih _ hy' htheta',
      hrow o c hc]
    rcases eq_or_ne o n with rfl | hne
    · rw [if_neg (lt_irrefl o), if_pos rfl, if_pos (Nat.lt_succ_self o)]
    · rw [if_neg hne]
      exact if_congr (by omega) rfl rfl

/-- The nested-tape branch puts the values in the output and a node's columns in its row. -/
lemma odeFwdNested_spec (A : OdeActivity) (thetaSource : ℕ) {times : ℕ}
    (solv : ℕ → ℕ → OdeTapeNode V) {ctx : OdeCtx V}
    (hlen : ctx.outLen = times * states) {n s : ℕ} (hn : n < times) (hs : s < states) :
    (odeFwdNested A states thetaSource times solv ctx).out (n * states + s) = (solv n s).val ∧
      ∀ c < states + thetaSource,
        (odeFwdNested A states thetaSource times solv ctx).scratch
          ((n * states + s) * (states + thetaSource) + c) = (solv n s).column A states c := by
  have hpos : 0 < states := by omega
  refine ⟨?_, fun c hc => ?_⟩
  · apply Scatter.storeAll_of_mem
    · exact List.mem_flatMap.2 ⟨n, List.mem_range.2 hn, List.mem_map.2 ⟨s, List.mem_range.2 hs, rfl⟩⟩
    · rintro _ he hcell
      obtain ⟨n', -, he⟩ := List.mem_flatMap.1 he
      obtain ⟨k, hk, rfl⟩ := List.mem_map.1 he
      obtain ⟨rfl, rfl⟩ := Scatter.row_eq_of_add_eq (List.mem_range.1 hk) hs hcell
      rfl
  · have hlt : n * states + s < ctx.outLen := by
      rw [hlen]
      calc n * states + s < (n + 1) * states := by rw [Nat.add_mul, Nat.one_mul]; omega
        _ ≤ times * states := Nat.mul_le_mul_right _ hn
    have hdiv : (n * states + s) / states = n := by
      rw [Nat.mul_comm, Nat.mul_add_div hpos, Nat.div_eq_of_lt hs, Nat.add_zero]
    have hmod : (n * states + s) % states = s := by
      rw [Nat.mul_comm, Nat.mul_add_mod, Nat.mod_eq_of_lt hs]
    have hrow := foldr_harvestRow (A := A) (fun o => solv (o / states) (o % states)) ctx.outLen
      ⟨ctx.scratch, fun _ => 0, fun _ => 0⟩ (fun _ _ => rfl) (fun _ _ => rfl)
      (o := n * states + s) hc
    rw [if_pos hlt, hdiv, hmod] at hrow
    exact hrow

/-- A sum over the outputs, time by time. -/
lemma sum_range_rows (times : ℕ) (f : ℕ → V) : ∑ o ∈ Finset.range (times * states), f o =
    ∑ n ∈ Finset.range times, ∑ s ∈ Finset.range states, f (n * states + s) := by
  induction times with
  | zero => simp
  | succ n ih => rw [Finset.sum_range_succ, ← ih, Nat.add_mul, Nat.one_mul, Finset.sum_range_add]

/-- The backward adds to the adjoint of an active input the output adjoints times its columns. -/
lemma odeBwd_spec (A : OdeActivity) (states thetaSource : ℕ) (present : OdeActivity) (outLen : ℕ) (jacobian outAdj yAdj thetaAdj : ℕ → V) :
    (∀ i < states, (odeBwd A states thetaSource present outLen jacobian outAdj yAdj thetaAdj).1 i =
      yAdj i + if A.y && present.y then ∑ o ∈ Finset.range outLen,
        outAdj o * jacobian (o * (states + thetaSource) + i) else 0) ∧
    ∀ l < thetaSource,
      (odeBwd A states thetaSource present outLen jacobian outAdj yAdj thetaAdj).2 l =
        thetaAdj l + if A.theta && present.theta then ∑ o ∈ Finset.range outLen,
          outAdj o * jacobian (o * (states + thetaSource) + states + l) else 0 := by
  -- One input: the loop adds one product per output.
  have hloop : ∀ (f : ℕ → ℕ → V) (len n : ℕ) (adj : ℕ → V) (i : ℕ), i < len →
      (List.range n).foldr (fun o adj => addAll adj ((List.range len).map fun i => (i, f o i))) adj i =
        adj i + ∑ o ∈ Finset.range n, f o i := by
    intro f len n adj i hi
    induction n generalizing adj with
    | zero => simp
    | succ n ih =>
      rw [List.range_succ, List.foldr_append, List.foldr_cons, List.foldr_nil, ih, addAll_apply,
        Finset.sum_range_succ, add_assoc, add_comm (gather _ i)]
      have hrun := gather_run 0 len (f n) i
      simp only [Nat.zero_add] at hrun
      rw [hrun, if_pos ⟨Nat.zero_le _, hi⟩]
  have hinput : ∀ (active : Bool) (f : ℕ → ℕ → V) (len n : ℕ) (adj : ℕ → V) (i : ℕ), i < len →
      (List.range n).foldr (fun o adj => if active then
        addAll adj ((List.range len).map fun i => (i, f o i)) else adj) adj i =
        adj i + if active then ∑ o ∈ Finset.range n, f o i else 0 := by
    intro active f len n adj i hi
    cases active with
    | true => exact hloop f len n adj i hi
    | false =>
      simp only [Bool.false_eq_true, if_false, add_zero]
      rw [List.foldr_fixed]
  have hpair : ∀ (F G : ℕ → (ℕ → V) → ℕ → V) (n : ℕ) (a b : ℕ → V),
      (List.range n).foldr (fun o adj => (F o adj.1, G o adj.2)) (a, b) =
        ((List.range n).foldr F a, (List.range n).foldr G b) := by
    intro F G n a b
    induction n generalizing a b with
    | zero => rfl
    | succ n ih =>
      rw [List.range_succ, List.foldr_append, List.foldr_append, List.foldr_append]
      exact ih _ _
  unfold odeBwd
  dsimp only
  split
  · rename_i hnone
    rw [Bool.and_eq_true, Bool.not_eq_true', Bool.not_eq_true'] at hnone
    rw [hnone.1, hnone.2]
    exact ⟨fun _ _ => (add_zero _).symm, fun _ _ => (add_zero _).symm⟩
  · rw [hpair (fun o adj => if A.y && present.y then addAll adj ((List.range states).map fun i =>
        (i, outAdj o * jacobian (o * (states + thetaSource) + i))) else adj)
      fun o adj => if A.theta && present.theta then addAll adj ((List.range thetaSource).map fun i =>
        (i, outAdj o * jacobian (o * (states + thetaSource) + states + i))) else adj]
    exact ⟨fun i hi => hinput _ (fun o i => outAdj o * jacobian (o * (states + thetaSource) + i))
      states outLen yAdj i hi, fun l hl => hinput _ (fun o i => outAdj o *
        jacobian (o * (states + thetaSource) + states + i)) thetaSource outLen thetaAdj l hl⟩

end Layout

/-! ## The initial lanes -/

section Initial

variable {V : Type} [Field V] {A : OdeActivity} {states : ℕ}

/-- The initial state: the states, and identity lanes for an active initial state. -/
lemma initialState_apply (y0 : ℕ → V) {L o : ℕ} (ho : o < states) :
    initialState A states y0 (L * states + o) =
      if L = 0 then y0 o else if A.y = true ∧ L = 1 + o then 1 else 0 := by
  have hbase : Scatter.storeAll ((List.range states).map fun i => (i, y0 i)) (fun _ => 0)
      (L * states + o) = if L = 0 then y0 o else 0 := by
    have hrow : Scatter.storeAll ((List.range states).map fun i => (0 * states + i, y0 i)) (fun _ => 0)
        (L * states + o) = if L = 0 ∧ o < states then y0 o else 0 :=
      Scatter.storeAll_row (fun _ => 0) y0 le_rfl ho
    simp only [Nat.zero_mul, Nat.zero_add] at hrow
    exact hrow.trans (if_congr (and_iff_left ho) rfl rfl)
  have hdiag : ∀ i, states + states * i + i = (1 + i) * states + i := fun i => by
    rw [Nat.add_mul, Nat.one_mul, Nat.mul_comm i]
  unfold initialState
  split
  · rename_i hy
    by_cases hL : L = 1 + o
    · rw [if_neg (by omega), if_pos ⟨hy, hL⟩]
      apply Scatter.storeAll_of_mem
      · refine List.mem_map.2 ⟨o, List.mem_range.2 ho, Prod.ext ?_ rfl⟩
        rw [hdiag, hL]
      · rintro _ he -
        obtain ⟨i, -, rfl⟩ := List.mem_map.1 he
        rfl
    · rw [Scatter.storeAll_of_ne, hbase, if_neg (show ¬(A.y = true ∧ L = 1 + o) from fun h => hL h.2)]
      rintro _ he hcell
      obtain ⟨i, hi, rfl⟩ := List.mem_map.1 he
      dsimp only at hcell
      rw [hdiag] at hcell
      obtain ⟨rfl, rfl⟩ := Scatter.row_eq_of_add_eq (List.mem_range.1 hi) ho hcell
      exact hL rfl
  · rename_i hy
    rw [hbase, if_neg (show ¬(A.y = true ∧ L = 1 + o) from fun h => hy h.1)]

end Initial

/-! ## The solve -/

section Solve

variable {V E : Type} [NontriviallyNormedField V] {M : StanMath V E Unit} {O : StanOde V E}
  {spec : OdeSpec V} {A : OdeActivity} {states thetaSource : ℕ}

lemma hasStates_initialState (y0 : ℕ → V) : HasStates states y0 (initialState A states y0) := by
  intro o ho
  have h := initialState_apply (A := A) y0 (L := 0) ho
  rwa [Nat.zero_mul, Nat.zero_add, if_pos rfl] at h

/-- Component `i` moved by `h`. -/
def shifted (x : ℕ → V) (i : ℕ) (h : V) : ℕ → V := Function.update x i (x i + h)

lemma shifted_zero (x : ℕ → V) (i : ℕ) : shifted x i 0 = x := by
  rw [shifted, add_zero, Function.update_eq_self]

lemma hasDerivAt_shifted (x : ℕ → V) (i o : ℕ) :
    HasDerivAt (fun h => shifted x i h o) (if o = i then 1 else 0) 0 := by
  rcases eq_or_ne o i with rfl | hne
  · rw [if_pos rfl]
    have hmove := (hasDerivAt_id (0 : V)).const_add (x o)
    refine hmove.congr_of_eventuallyEq (Filter.Eventually.of_forall fun h => ?_)
    exact Function.update_self ..
  · rw [if_neg hne]
    have hstay := hasDerivAt_const (0 : V) (x o)
    refine hstay.congr_of_eventuallyEq (Filter.Eventually.of_forall fun h => ?_)
    exact Function.update_of_ne hne ..

/-- The identity lane of an initial state. -/
lemma isLaneCurve_y (y0 : ℕ → V) (hy : A.y = true) (l : ℕ) :
    IsLaneCurve states (1 + l) (initialState A states y0) (shifted y0 l) := by
  refine ⟨fun o ho => ?_, fun o ho => ?_⟩
  · rw [shifted_zero, hasStates_initialState y0 o ho]
  · rw [initialState_apply y0 ho, if_neg (by omega)]
    rw [if_congr (show A.y = true ∧ 1 + l = 1 + o ↔ o = l by simp [hy, eq_comm]) rfl rfl]
    exact hasDerivAt_shifted y0 l o

/-- The empty lane of a parameter. -/
lemma isLaneCurve_theta (y0 : ℕ → V) (l : ℕ) :
    IsLaneCurve states (1 + A.yLanes states + l) (initialState A states y0) fun _ => y0 := by
  refine ⟨fun o ho => (hasStates_initialState y0 o ho).symm, fun o ho => ?_⟩
  rw [initialState_apply y0 ho, if_neg (by omega), if_neg]
  · exact hasDerivAt_const 0 (y0 o)
  · rintro ⟨hy, hL⟩
    have hlanes : A.yLanes states = states := if_pos hy
    omega

lemma isParameterCurve_y (theta : ℕ → V) {l : ℕ} (hy : A.y = true) (hl : l < states) :
    IsParameterCurve spec A states (1 + l) theta fun _ => theta where
  at_zero := rfl
  pos := by omega
  hasDerivAt k _ := by
    have hlanes : A.yLanes states = states := if_pos hy
    rw [if_neg (by omega)]
    exact hasDerivAt_const 0 (theta k)

lemma isParameterCurve_theta (theta : ℕ → V) (l : ℕ) :
    IsParameterCurve spec A states (1 + A.yLanes states + l) theta (shifted theta l) where
  at_zero := shifted_zero theta l
  pos := by omega
  hasDerivAt k _ := by
    rw [if_congr (show A.yLanes states < 1 + A.yLanes states + l ∧
      k = 1 + A.yLanes states + l - 1 - A.yLanes states ↔ k = l by omega) rfl rfl]
    exact hasDerivAt_shifted theta l k

variable (M O spec A)

/-- State `s` at output time `n`, as a function of the initial state and the parameters. -/
def OdeSpec.solutionAt (moves : List (Move V)) (n s : ℕ) (y0 theta : ℕ → V) : V :=
  stateAt (spec.trajectory M O moves y0 theta) (n + 1) s

/-- The values of the initial state and of the parameters. -/
def OdeCtx.y0Data (ctx : OdeCtx V) (i : ℕ) : V := ctx.y0.getD i 0

def OdeCtx.thetaData (ctx : OdeCtx V) (i : ℕ) : V := ctx.theta.getD i 0

/-- The Jacobian row of an output: `states` columns, then one per parameter. -/
def OdeCtx.row (ctx : OdeCtx V) (n s : ℕ) : ℕ :=
  (n * ctx.y0.length + s) * (ctx.y0.length + ctx.theta.length)

/-- `out` and `scratch` hold the states at the output times and, where the right-hand side is
differentiable along the solve, their partial derivatives; the columns of inactive inputs are zero. -/
structure OdeCtx.HoldsSensitivities (ctx ctx' : OdeCtx V) (moves : List (Move V)) : Prop where
  out : ∀ n < spec.ts.length, ∀ s < ctx.y0.length, ctx'.out (n * ctx.y0.length + s) =
    spec.solutionAt M O moves n s ctx.y0Data ctx.thetaData
  y : A.y = true → spec.DifferentiableAlong M O moves ctx.y0Data ctx.thetaData →
    ∀ n < spec.ts.length, ∀ s < ctx.y0.length, ∀ i < ctx.y0.length,
      HasDerivAt (fun h => spec.solutionAt M O moves n s (shifted ctx.y0Data i h) ctx.thetaData)
        (ctx'.scratch (ctx.row n s + i)) 0
  theta : A.theta = true → spec.DifferentiableAlong M O moves ctx.y0Data ctx.thetaData →
    ∀ n < spec.ts.length, ∀ s < ctx.y0.length, ∀ l < ctx.theta.length,
      HasDerivAt (fun h => spec.solutionAt M O moves n s ctx.y0Data (shifted ctx.thetaData l h))
        (ctx'.scratch (ctx.row n s + ctx.y0.length + l)) 0
  yInactive : A.y = false → ∀ n < spec.ts.length, ∀ s < ctx.y0.length, ∀ i < ctx.y0.length,
    ctx'.scratch (ctx.row n s + i) = 0
  thetaInactive : A.theta = false → ∀ n < spec.ts.length, ∀ s < ctx.y0.length,
    ∀ l < ctx.theta.length, ctx'.scratch (ctx.row n s + ctx.y0.length + l) = 0

/-- The nodes of a tape on which Stan Math has made the same moves: the states at the output times, and
the gradients of the active inputs. -/
structure OdeCtx.IsTape (ctx : OdeCtx V) (moves : List (Move V)) (solv : ℕ → ℕ → OdeTapeNode V) :
    Prop where
  val : ∀ n < spec.ts.length, ∀ s < ctx.y0.length,
    (solv n s).val = spec.solutionAt M O moves n s ctx.y0Data ctx.thetaData
  y : A.y = true → ∀ n < spec.ts.length, ∀ s < ctx.y0.length, ∀ i < ctx.y0.length,
    HasDerivAt (fun h => spec.solutionAt M O moves n s (shifted ctx.y0Data i h) ctx.thetaData)
      ((solv n s).y i) 0
  theta : A.theta = true → ∀ n < spec.ts.length, ∀ s < ctx.y0.length, ∀ l < ctx.theta.length,
    HasDerivAt (fun h => spec.solutionAt M O moves n s ctx.y0Data (shifted ctx.thetaData l h))
      ((solv n s).theta l) 0

variable {M O spec A} {limit : ℕ} {ctx : OdeCtx V}

/-- The checks around a run do not depend on which of two related systems runs. -/
lemma solution_tracks (O : StanOde V E) (spec : OdeSpec V) {R : (ℕ → V) → (ℕ → V) → Prop} (hR : IsLinear V R)
    {f g : V → (ℕ → V) → Except E (ℕ → V)} (h : ∀ t x y, R x y → Tracks R (f t x) (g t y))
    (moves : List (Move V)) (y0 theta : List V) {x y : ℕ → V} (hxy : R x y) :
    Tracks (List.Forall₂ R) (solution O spec f moves y0 theta x)
      (solution O spec g moves y0 theta y) := by
  unfold solution
  cases O.validate spec.functionName spec y0 theta with
  | error e => exact tracks_error e
  | ok u =>
    have hobserved := tracks_observed (D := fun _ _ => True) hR (spec.ts.length + 1) (tooMany O)
      (fun t x y _ hxy => h t x y hxy) moves (along_of_forall (fun _ _ => trivial) _ _ _) hxy
    refine hobserved.bind fun xs ys _ _ hcells => ?_
    rw [hcells.length_eq]
    split
    · exact tracks_error _
    · exact tracks_ok hcells

/-- A solve that goes on observed what it returns. -/
lemma observed_of_solution {f : V → (ℕ → V) → Except E (ℕ → V)} {moves : List (Move V)}
    {y0 theta : List V} {x : ℕ → V} {zs : List (ℕ → V)}
    (h : solution O spec f moves y0 theta x = .ok zs) :
    observed (spec.ts.length + 1) (tooMany O) f moves x = .ok zs := by
  unfold solution at h
  cases hval : O.validate spec.functionName spec y0 theta with
  | error e =>
    rw [hval] at h
    cases h
  | ok u =>
    rw [hval] at h
    change (observed (spec.ts.length + 1) (tooMany O) f moves x).bind _ = _ at h
    cases hrun : observed (spec.ts.length + 1) (tooMany O) f moves x with
    | error e =>
      rw [hrun] at h
      cases h
    | ok ys =>
      rw [hrun] at h
      change (if ys.length - 1 ≠ spec.ts.length then _ else _) = _ at h
      split at h
      · cases h
      · exact h

/-- The lanes of the coupled run are the sensitivities. -/
lemma holdsSensitivities_of_states (hstates : spec.prog.nY = ctx.y0.length) {moves : List (Move V)}
    {ctx' : OdeCtx V} {zs : List (ℕ → V)} (hcells : ctx.HoldsStates ctx' spec A zs)
    (hrun : observed (spec.ts.length + 1) (tooMany O)
      (coupledRhs M spec A ctx.y0.length ctx.theta.length ctx.thetaData) moves
      (initialState A ctx.y0.length ctx.y0Data) = .ok zs) :
    ctx.HoldsSensitivities M O spec A ctx' moves := by
  have hcol : ∀ n < spec.ts.length, ∀ s < ctx.y0.length, ∀ c < ctx.y0.length + ctx.theta.length,
      ctx'.scratch (ctx.row n s + c) = column A ctx.y0.length (entry zs (n + 1)) s c :=
    fun n hn s hs c hc => (hcells n hn s hs).2 c hc
  have htheta : ∀ n < spec.ts.length, ∀ s < ctx.y0.length, ∀ l < ctx.theta.length,
      ctx'.scratch (ctx.row n s + ctx.y0.length + l) = if A.theta then
        entry zs (n + 1) ((1 + A.yLanes ctx.y0.length + l) * ctx.y0.length + s) else 0 := by
    intro n hn s hs l hl
    rw [Nat.add_assoc, hcol n hn s hs _ (by omega), column, if_neg (by omega),
      Nat.add_sub_cancel_left]
  refine ⟨fun n hn s hs => ?_, fun hy hdiff n hn s hs i hi => ?_, fun hact hdiff n hn s hs l hl => ?_,
    fun hy n hn s hs i hi => ?_, fun hact n hn s hs l hl => ?_⟩
  · have hbase := tracks_observed (D := fun _ _ => True) (f := spec.field M ctx.thetaData)
      (g := coupledRhs M spec A ctx.y0.length ctx.theta.length ctx.thetaData) isLinear_hasStates
      (spec.ts.length + 1) (tooMany O)
      (fun t y z _ hyz => field_tracks_coupled A ctx.theta.length hstates hyz) moves
      (along_of_forall (fun _ _ => trivial) _ _ _) (hasStates_initialState (A := A) ctx.y0Data)
    obtain ⟨ys, hys, hyz⟩ := hbase.of_ok hrun
    rw [(hcells n hn s hs).1, OdeSpec.solutionAt, OdeSpec.trajectory, hys, stateAt]
    exact isLinear_hasStates.entry hyz (n + 1) s hs
  · have hlane := hasDerivAt_lane (L := 1 + i) (A := A) (by
        have hlanes : A.yLanes ctx.y0.length = ctx.y0.length := if_pos hy
        unfold OdeActivity.laneCount
        omega) hstates hdiff (isParameterCurve_y ctx.thetaData hy hi)
      (hasStates_initialState ctx.y0Data) (isLaneCurve_y ctx.y0Data hy i) hrun (n + 1) hs
    rw [hcol n hn s hs i (by omega), column, if_pos hi, if_pos hy]
    exact hlane
  · have hlane := hasDerivAt_lane (L := 1 + A.yLanes ctx.y0.length + l) (A := A) (by
        have hlanes : A.thetaLanes ctx.theta.length = ctx.theta.length := if_pos hact
        unfold OdeActivity.laneCount
        omega) hstates hdiff (isParameterCurve_theta ctx.thetaData l)
      (hasStates_initialState ctx.y0Data) (isLaneCurve_theta ctx.y0Data l) hrun (n + 1) hs
    rw [htheta n hn s hs l hl, if_pos hact]
    exact hlane
  · rw [hcol n hn s hs i (by omega), column, if_pos hi, hy]
    rfl
  · rw [htheta n hn s hs l hl, hact]
    rfl

/-- A tape of the same moves is harvested into the layout of the direct solve. -/
lemma harvest_eq {moves : List (Move V)} {ctx' : OdeCtx V} {solv : ℕ → ℕ → OdeTapeNode V}
    (hlen : ctx.outLen = spec.ts.length * ctx.y0.length)
    (hholds : ctx.HoldsSensitivities M O spec A ctx' moves)
    (hdiff : spec.DifferentiableAlong M O moves ctx.y0Data ctx.thetaData)
    (htape : ctx.IsTape M O spec A moves solv) {n s : ℕ} (hn : n < spec.ts.length)
    (hs : s < ctx.y0.length) :
    let nested := odeFwdNested A ctx.y0.length ctx.theta.length spec.ts.length solv ctx
    nested.out (n * ctx.y0.length + s) = ctx'.out (n * ctx.y0.length + s) ∧
      ∀ c < ctx.y0.length + ctx.theta.length,
        nested.scratch (ctx.row n s + c) = ctx'.scratch (ctx.row n s + c) := by
  obtain ⟨hout, hcols⟩ := odeFwdNested_spec A ctx.theta.length solv hlen hn hs
  refine ⟨hout.trans ((htape.val n hn s hs).trans (hholds.out n hn s hs).symm), fun c hc => ?_⟩
  refine (hcols c hc).trans ?_
  rcases Nat.lt_or_ge c ctx.y0.length with hlt | hge
  · rw [OdeTapeNode.column, if_pos hlt]
    cases hy : A.y with
    | true => exact (htape.y hy n hn s hs c hlt).unique (hholds.y hy hdiff n hn s hs c hlt)
    | false => exact (hholds.yInactive hy n hn s hs c hlt).symm
  · obtain ⟨l, rfl⟩ := Nat.exists_eq_add_of_le hge
    have hl : l < ctx.theta.length := by omega
    rw [OdeTapeNode.column, if_neg (by omega), Nat.add_sub_cancel_left, ← Nat.add_assoc]
    cases hact : A.theta with
    | true => exact (htape.theta hact n hn s hs l hl).unique (hholds.theta hact hdiff n hn s hs l hl)
    | false => exact (hholds.thetaInactive hact n hn s hs l hl).symm

/-- The direct Runge-Kutta path solves the coupled system.  Every call of the system leaves `f`, `J_y`
times the lanes and the columns of `J_theta`, whatever the storage holds; the solve fails where the
states alone do and otherwise leaves them with their partial derivatives; the nested-tape branch fills
the same cells; and the backward adds the output adjoints times the columns. -/
theorem solveDirectRk_sensitivities
    (haccept : spec.prog.makeRhsAdjointProgram M.toRegistry = .ok spec.directRk)
    (hinit : IslandProg.InitialisesReads M.toRegistry spec.prog.island)
    (hderives : IslandProg.Derives M spec.prog.island spec.directRk (· ∈ spec.prog.island.activeIns))
    (hshape : directRkShapeOk limit ctx spec A = true) :
    (∀ theta w z dz t,
      Tracks (fun r f => IsCoupledDerivative A ctx.y0.length ctx.theta.length f
          (spec.prog.jacobianY M spec.xrData t z theta)
          (spec.prog.jacobianTheta M spec.xrData t z theta) z r.1)
        (DirectRkSystem.call M O.runtimeError spec A ctx.y0.length ctx.theta.length theta w
          (A.coupledSize ctx.y0.length ctx.theta.length) z dz t)
        (spec.prog.value M spec.xrData t z theta)) ∧
    (∀ moves, Tracks (fun ctx' _ => ctx.HoldsSensitivities M O spec A ctx' moves)
      (solveDirectRk M O spec A moves ctx)
      (solution O spec (spec.field M ctx.thetaData) moves ctx.y0 ctx.theta ctx.y0Data)) ∧
    (∀ moves ctx' solv, solveDirectRk M O spec A moves ctx = .ok ctx' →
      spec.DifferentiableAlong M O moves ctx.y0Data ctx.thetaData →
      ctx.IsTape M O spec A moves solv →
      ∀ n < spec.ts.length, ∀ s < ctx.y0.length,
        let nested := odeFwdNested A ctx.y0.length ctx.theta.length spec.ts.length solv ctx
        nested.out (n * ctx.y0.length + s) = ctx'.out (n * ctx.y0.length + s) ∧
          ∀ c < ctx.y0.length + ctx.theta.length,
            nested.scratch (ctx.row n s + c) = ctx'.scratch (ctx.row n s + c)) ∧
    (∀ (present : OdeActivity) (ctx' : OdeCtx V) (outAdj yAdj thetaAdj : ℕ → V),
      let bwd := odeBwd A ctx.y0.length ctx.theta.length present ctx.outLen ctx'.scratch outAdj yAdj
        thetaAdj
      (∀ i < ctx.y0.length, bwd.1 i = yAdj i + if A.y && present.y then
        ∑ n ∈ Finset.range spec.ts.length, ∑ s ∈ Finset.range ctx.y0.length,
          outAdj (n * ctx.y0.length + s) * ctx'.scratch (ctx.row n s + i) else 0) ∧
      ∀ l < ctx.theta.length, bwd.2 l = thetaAdj l + if A.theta && present.theta then
        ∑ n ∈ Finset.range spec.ts.length, ∑ s ∈ Finset.range ctx.y0.length,
          outAdj (n * ctx.y0.length + s) * ctx'.scratch (ctx.row n s + ctx.y0.length + l) else 0) := by
  obtain ⟨hY, hTh, hout, hlen⟩ := directRkShapeOk_iff_shape hshape
  have hsolve : ∀ moves, Tracks (fun ctx' _ => ctx.HoldsSensitivities M O spec A ctx' moves)
      (solveDirectRk M O spec A moves ctx)
      (solution O spec (spec.field M ctx.thetaData) moves ctx.y0 ctx.theta ctx.y0Data) := by
    intro moves
    have hdirect := solveDirectRk_tracks (O := O) haccept hinit hderives hshape moves
    have hbase := solution_tracks O spec (f := spec.field M ctx.thetaData)
      (g := coupledRhs M spec A ctx.y0.length ctx.theta.length ctx.thetaData) isLinear_hasStates
      (fun t y z hyz => field_tracks_coupled A ctx.theta.length hY hyz) moves ctx.y0 ctx.theta
      (hasStates_initialState (A := A) ctx.y0Data)
    constructor
    · intro ctx' hctx'
      obtain ⟨zs, hzs, hcells⟩ := hdirect.1 ctx' hctx'
      obtain ⟨ys, hys, -⟩ := hbase.of_ok hzs
      exact ⟨ys, hys, holdsSensitivities_of_states hY hcells (observed_of_solution hzs)⟩
    · intro e he
      exact hbase.symm.2 e (hdirect.2 e he)
  refine ⟨fun theta w z dz t => ?_, hsolve, fun moves ctx' solv hctx' hdiff htape n hn s hs => ?_,
    fun present ctx' outAdj yAdj thetaAdj => ?_⟩
  · have hcall := DirectRkSystem.call_tracks haccept hinit hderives hY hTh hout O.runtimeError A theta
      w z dz t
    exact hcall.mono fun _ _ h => DirectRkSystem.isCoupledDerivative_of_lanes h
  · obtain ⟨ys, -, hholds⟩ := (hsolve moves).1 ctx' hctx'
    exact harvest_eq hlen hholds hdiff htape hn hs
  · obtain ⟨hy, htheta⟩ := odeBwd_spec A ctx.y0.length ctx.theta.length present ctx.outLen
      ctx'.scratch outAdj yAdj thetaAdj
    rw [hlen] at hy htheta ⊢
    refine ⟨fun i hi => ?_, fun l hl => ?_⟩
    · rw [hy i hi, sum_range_rows]
      rfl
    · rw [htheta l hl, sum_range_rows]
      rfl

end Solve

/-! ## Exponential growth -/

/-- `y' = theta y`. -/
def growthRhs : RhsProgram ℚ where
  code := [{ code := .mul, dst := 3, a := 1, b := 2 }]
  nRegs := 4
  outRegs := [3]
  tReg := 0
  y0 := 1
  th0 := 2
  xr0 := 3
  nY := 1
  nTh := 1
  nXr := 0
  ok := true

/-- One output time. -/
def growthSpec : OdeSpec ℚ where
  prog := growthRhs
  directRk := (growthRhs.island.genAdjoint ratMath.toRegistry false).2
  xr := []
  t0 := 0
  ts := [1 / 2]
  rtol := 1
  atol := 1
  maxSteps := 10
  solver := .rk45
  legacy := false

/-- Three units that double, with room for one output and its row. -/
def growthCtx : OdeCtx ℚ where
  y0 := [3]
  theta := [2]
  outLen := 1
  out _ := 0
  scratch _ := 7

/-- Nothing to check. -/
def ratOde : StanOde ℚ String where
  runtimeError message := message
  validate _ _ _ _ := .ok ()

/-- One step of Euler's method. -/
def eulerMoves : List (Move ℚ) :=
  [.observe 0, .evaluate 0 0, .combine [(1, 0), (1 / 2, 1)], .observe 2]

lemma growthRhs_initialises : IslandProg.InitialisesReads ratMath.toRegistry growthRhs.island :=
  IslandProg.initialisesReads_of_written [[]] [3] rfl rfl (by decide) (by decide) (by decide)

lemma growthRhs_derives : IslandProg.Derives ratMath growthRhs.island growthSpec.directRk
    (· ∈ growthRhs.island.activeIns) := by
  have hacc : (growthRhs.island.genAdjoint ratMath.toRegistry false).1 = true := by decide +kernel
  exact IslandProg.derives_of_genAdjoint rfl ratMath_honest ratMath_exactInts (by decide) (by decide)
    growthRhs_initialises (by decide) (Prod.ext hacc rfl)

/-- Both inputs active: Euler's method turns three into six, with sensitivities two and three halves. -/
theorem growth_sensitivities :
    Tracks (fun ctx' _ =>
        growthCtx.HoldsSensitivities ratMath ratOde growthSpec ⟨true, true⟩ ctx' eulerMoves)
      (solveDirectRk ratMath ratOde growthSpec ⟨true, true⟩ eulerMoves growthCtx)
      (solution ratOde growthSpec (growthSpec.field ratMath growthCtx.thetaData) eulerMoves [3] [2]
        growthCtx.y0Data) ∧
    (solveDirectRk ratMath ratOde growthSpec ⟨true, true⟩ eulerMoves growthCtx).toOption.map
      (fun ctx' => (ctx'.out 0, ctx'.scratch 0, ctx'.scratch 1)) = some (6, 2, 3 / 2) :=
  have hshape : directRkShapeOk (2 ^ 64 - 1) growthCtx growthSpec ⟨true, true⟩ = true := by
    decide +kernel
  ⟨(solveDirectRk_sensitivities rfl growthRhs_initialises growthRhs_derives hshape).2.1 eulerMoves, by
    decide +kernel⟩

end Stanli
