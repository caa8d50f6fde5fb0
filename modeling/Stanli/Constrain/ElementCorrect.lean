import Mathlib.Analysis.Calculus.Deriv.Add
import Stanli.Constrain.TwoBounds

/-!
# When the elementwise operations are exact

A call is exact (`Elementwise.Exact`) when its forward leaves the transform and the logarithm of its
derivative, and its backward adds the vector-Jacobian product of both to the raw value and to each
argument.  A call with valid arguments is exact if and only if no argument that the kernels read without
looking at the number of elements is empty (`Elementwise.ReadsInside`, `exact_iff_readsInside`).
-/

namespace Stanli.Constrain

open Finset Function
open Collapse (Desc)

/-- The arguments that an element reads. -/
def argsAt (arg : ℕ → Desc (Extended ℝ)) (i : ℕ) : ℕ → Extended ℝ := fun k => (arg k).at_ i

namespace Elementwise

variable {F : Elementary ℝ} {op : Elementwise} {n : ℕ} {x : ℕ → ℝ} {arg : ℕ → Desc (Extended ℝ)}
variable {adj : ℕ → Option AdjDesc}

/-! ## The vector-Jacobian product -/

section Vjp

variable (op n)

/-- The constrained value and the log-Jacobian, weighted by the seeds. -/
noncomputable def objective (seed : ℕ → ℝ) (lp : ℝ) (arg : ℕ → Desc (Extended ℝ)) (x : ℕ → ℝ) : ℝ :=
  (∑ i ∈ range n, seed i * op.value (argsAt arg i) (x i)) +
    lp * ∑ i ∈ range n, op.logSlope (argsAt arg i) (x i)

/-- The derivatives of the weighted outputs by the raw value (`k = 0`) and by each finite value of each
argument.  Nothing depends on the value of an infinite one. -/
structure IsVjp (seed : ℕ → ℝ) (lp : ℝ) (arg : ℕ → Desc (Extended ℝ)) (x : ℕ → ℝ) (δ : ℕ → ℕ → ℝ) :
    Prop where
  raw : ∀ j < n, HasDerivAt (fun t => op.objective n seed lp arg (update x j t)) (δ 0 j) (x j)
  finite : ∀ k, 1 ≤ k → k ≤ op.arity → ∀ j < (arg k).len, ∀ v, (arg k).data j = .finite v →
    HasDerivAt (fun t => op.objective n seed lp (update arg k ((arg k).set j (.finite t))) x) (δ k j) v
  infinite : ∀ k, 1 ≤ k → k ≤ op.arity → ∀ j < (arg k).len, (arg k).data j = .infinite → δ k j = 0

end Vjp

/-- The cell of an argument that an element reads. -/
def slotOf (arg : ℕ → Desc (Extended ℝ)) (k i : ℕ) : ℕ := if k = 0 then i else (arg k).slot i

/-- The terms of the elements, collected in the cells that they read. -/
noncomputable def collected (op : Elementwise) (n : ℕ) (seed : ℕ → ℝ) (lp : ℝ)
    (arg : ℕ → Desc (Extended ℝ)) (x : ℕ → ℝ) (k j : ℕ) : ℝ :=
  ∑ i ∈ range n, if slotOf arg k i = j then op.term (seed i) lp (argsAt arg i) (x i) k else 0

lemma objective_eq (seed : ℕ → ℝ) (lp : ℝ) (arg : ℕ → Desc (Extended ℝ)) (x : ℕ → ℝ) :
    op.objective n seed lp arg x =
      ∑ i ∈ range n, op.elementObjective (seed i) lp (argsAt arg i) (x i) := by
  rw [objective, mul_sum, ← sum_add_distrib]
  rfl

/-- The derivative of a sum of which some terms do not depend on the variable. -/
lemma hasDerivAt_sum_reads {f : ℕ → ℝ → ℝ} {d : ℕ → ℝ} {v : ℝ} (reads : ℕ → Prop)
    [DecidablePred reads] (hread : ∀ i < n, reads i → HasDerivAt (f i) (d i) v)
    (hother : ∀ i < n, ¬reads i → ∀ t, f i t = f i v) :
    HasDerivAt (fun t => ∑ i ∈ range n, f i t) (∑ i ∈ range n, if reads i then d i else 0) v := by
  refine HasDerivAt.fun_sum fun i hi => ?_
  by_cases h : reads i
  · rw [if_pos h]
    exact hread i (mem_range.1 hi) h
  · rw [if_neg h, funext (hother i (mem_range.1 hi) h)]
    exact hasDerivAt_const v (f i v)

/-- The arguments of an element after one value of one argument has changed. -/
lemma argsAt_set (arg : ℕ → Desc (Extended ℝ)) (k j i : ℕ) (w : Extended ℝ) :
    argsAt (update arg k ((arg k).set j w)) i =
      if (arg k).slot i = j then update (argsAt arg i) k w else argsAt arg i := by
  funext l
  unfold argsAt
  by_cases hl : l = k
  · subst hl
    rw [update_self]
    change update (arg l).data j w ((arg l).slot i) = _
    split
    · rename_i hslot
      rw [hslot, update_self, update_self]
    · rename_i hslot
      rw [update_of_ne hslot]
      rfl
  · rw [update_of_ne hl]
    split
    · rw [update_of_ne hl]
    · rfl

theorem collected_isVjp (hp : ∀ i < n, op.Proper (argsAt arg i)) (seed : ℕ → ℝ) (lp : ℝ) (x : ℕ → ℝ) :
    op.IsVjp n seed lp arg x (op.collected n seed lp arg x) where
  raw j hj := by
    simp only [objective_eq]
    refine hasDerivAt_sum_reads (fun i => slotOf arg 0 i = j) (fun i hi h => ?_) fun i hi h t => ?_
    · obtain rfl : i = j := h
      simp only [update_self]
      exact hasDerivAt_elementObjective_raw (hp i hi) (seed i) lp (x i)
    · change i ≠ j at h
      rw [update_of_ne h, update_of_ne h]
  finite k hk hk' j hj v hv := by
    have hslot : ∀ i, slotOf arg k i = (arg k).slot i := fun i => if_neg (by omega)
    simp only [objective_eq, argsAt_set]
    refine hasDerivAt_sum_reads (fun i => slotOf arg k i = j) (fun i hi h => ?_) fun i hi h t => ?_
    · rw [hslot] at h
      simp only [if_pos h]
      refine hasDerivAt_elementObjective_arg (hp i hi) (seed i) lp (x i) hk hk' ?_
      rw [argsAt, Desc.at_, h, hv]
    · rw [hslot] at h
      rw [if_neg h, if_neg h]
  infinite k hk hk' j hj hv := by
    refine sum_eq_zero fun i hi => ?_
    split
    · rename_i h
      refine term_of_infinite (hp i (mem_range.1 hi)) (seed i) lp (x i) hk hk' ?_
      rw [slotOf, if_neg (by omega)] at h
      rw [argsAt, Desc.at_, h, hv]
    · rfl

/-! ## Calls -/

/-- What the checks of an operation accept. -/
def Accepted (op : Elementwise) (arg : ℕ → Desc (Extended ℝ)) : Prop :=
  match op with
  | lower => True
  | upper => True
  | lu => OrderedArgs (arg 1) (arg 2)
  | offsetMult => Admissible (arg 1) (arg 2)

/-- A call with one shared value or one value per element in each argument, which the checks accept, and
whose adjoints are as long as their values. -/
structure Valid (op : Elementwise) (n : ℕ) (arg : ℕ → Desc (Extended ℝ)) (adj : ℕ → Option AdjDesc) :
    Prop where
  shaped : ∀ k, 1 ≤ k → k ≤ op.arity → Shaped n (arg k)
  raw : Fits n (adj 0)
  fits : ∀ k, 1 ≤ k → k ≤ op.arity → Fits (arg k).len (adj k)
  accepted : op.Accepted arg

/-- The forward leaves the transform and the logarithm of its derivative, and the backward, which reads
what the forward left in the scratch, adds the vector-Jacobian product. -/
def Exact (op : Elementwise) (F : Elementary ℝ) (n : ℕ) (x : ℕ → ℝ) (arg : ℕ → Desc (Extended ℝ))
    (adj : ℕ → Option AdjDesc) (rows : ℕ) : Prop :=
  ∀ c : Cells ℝ, ∃ c', op.forward F n x arg rows c = .ok c' ∧
    (∀ i < n, c'.out i = op.value (argsAt arg i) (x i)) ∧
    c'.out2 = ∑ i ∈ range n, op.logSlope (argsAt arg i) (x i) ∧
    ∀ scratch : ℕ → ℝ, (∀ i < n, scratch i = c'.scratch i) → ∀ (seed : ℕ → ℝ) (lp : ℝ),
      ∃ δ, op.IsVjp n seed lp arg x δ ∧ ∀ m, op.backward F n x arg adj scratch seed lp m =
        .ok (m + ∑ k ∈ range (op.arity + 1), spread (adj k) (δ k))

/-- No argument is empty that the kernels read whatever the number of elements is: the bound of a
one-sided operation, the lower of two bounds, the upper one unless the lower one is infinite, the
multiplier, and the adjoint of the offset. -/
def ReadsInside (op : Elementwise) (arg : ℕ → Desc (Extended ℝ)) (adj : ℕ → Option AdjDesc) : Prop :=
  match op with
  | lower => (arg 1).len ≠ 0
  | upper => (arg 1).len ≠ 0
  | lu => (arg 1).len ≠ 0 ∧ ((arg 2).len ≠ 0 ∨ (arg 1).data 0 = .infinite)
  | offsetMult => (arg 2).len ≠ 0 ∧ ((arg 1).len ≠ 0 ∨ adj 1 = none)

namespace Valid

lemma proper (h : op.Valid n arg adj) {i : ℕ} (hi : i < n) : op.Proper (argsAt arg i) := by
  cases op with
  | lower => trivial
  | upper => trivial
  | lu =>
    have hpair : Paired n (arg 1) (arg 2) :=
      ⟨h.shaped 1 le_rfl (by decide), h.shaped 2 (by decide) le_rfl, h.accepted⟩
    exact hpair.at_ordered hi
  | offsetMult =>
    have hadm : Admissible (arg 1) (arg 2) := h.accepted
    have hmu := (h.shaped 1 le_rfl (by decide)).slot_lt hi
    have hsg := (h.shaped 2 (by decide) le_rfl).slot_lt hi
    exact ⟨hadm.offset _ hmu, hadm.multiplier _ hsg⟩

/-- What the elements add to one argument. -/
lemma sum_share (h : op.Valid n arg adj) (seed : ℕ → ℝ) (lp : ℝ) (x : ℕ → ℝ) {k : ℕ}
    (hk : k ≤ op.arity) : ∑ i ∈ range n, share (adj k) (slotOf arg k i)
      (op.term (seed i) lp (argsAt arg i) (x i) k) = spread (adj k) (op.collected n seed lp arg x k) := by
  by_cases hz : k = 0
  · subst hz
    exact sum_share_eq_spread h.raw (fun i hi => hi) _
  · have hpos : 1 ≤ k := Nat.one_le_iff_ne_zero.2 hz
    refine sum_share_eq_spread (h.fits k hpos hk) (fun i hi => ?_) _
    rw [slotOf, if_neg hz]
    exact (h.shaped k hpos hk).slot_lt hi

/-- A call is exact if its forward leaves the outputs and its backward adds the terms of the elements. -/
lemma exact_of_shares (h : op.Valid n arg adj) {rows : ℕ}
    (hrun : ∀ c : Cells ℝ, ∃ c', op.forward F n x arg rows c = .ok c' ∧
      (∀ i < n, c'.out i = op.value (argsAt arg i) (x i)) ∧
      c'.out2 = ∑ i ∈ range n, op.logSlope (argsAt arg i) (x i) ∧
      ∀ scratch : ℕ → ℝ, (∀ i < n, scratch i = c'.scratch i) → ∀ (seed : ℕ → ℝ) (lp : ℝ) (m : ℕ → ℝ),
        op.backward F n x arg adj scratch seed lp m =
          .ok (m + ∑ k ∈ range (op.arity + 1), ∑ i ∈ range n, share (adj k) (slotOf arg k i)
            (op.term (seed i) lp (argsAt arg i) (x i) k))) : op.Exact F n x arg adj rows := by
  intro c
  obtain ⟨c', hfwd, hout, hout2, hbwd⟩ := hrun c
  refine ⟨c', hfwd, hout, hout2, fun scratch hscratch seed lp => ?_⟩
  refine ⟨_, collected_isVjp (fun i hi => h.proper hi) seed lp x, fun m => ?_⟩
  rw [hbwd scratch hscratch seed lp m]
  congr 2
  exact sum_congr rfl fun k hk => h.sum_share seed lp x (Nat.lt_succ_iff.1 (mem_range.1 hk))

/-! ### What reads inside the buffers is exact -/

/-- An operation with one bound whose kernels and terms are those of `oneSidedFwd` and `oneSidedBwd`. -/
lemma exact_oneSided (hF : F.Lawful) (h : op.Valid n arg adj) (hone : op.arity = 1) (apply : ℝ → ℝ → ℝ)
    (sign : ℝ → ℝ) {rows : ℕ}
    (hfwd : ∀ c, op.forward F n x arg rows c = oneSidedFwd F apply n x (arg 1) c)
    (hbwd : ∀ scratch seed lp m, op.backward F n x arg adj scratch seed lp m =
      oneSidedBwd sign n (arg 1) (adj 0) (adj 1) scratch seed lp m)
    (hvalue : ∀ a x, oneSidedValue apply (a 1) x = op.value a x)
    (hlog : ∀ a x, (if (a 1).isInfinite then 0 else x) = op.logSlope a x)
    (hraw : ∀ s lp a x, (if (a 1).isInfinite then s else sign s * Real.exp x + lp) = op.term s lp a x 0)
    (harg : ∀ s lp a x, (if (a 1).isInfinite then 0 else s) = op.term s lp a x 1)
    (hne : (arg 1).len ≠ 0) : op.Exact F n x arg adj rows := by
  have hs : Shaped n (arg 1) := h.shaped 1 le_rfl hone.ge
  refine h.exact_of_shares fun c => ?_
  obtain ⟨c', hrun, hout, hout2, hscratch⟩ := oneSidedFwd_ok hF apply hs hne x c
  refine ⟨c', (hfwd c).trans hrun, fun i hi => ?_, hout2.trans ?_, fun scratch hscr seed lp m => ?_⟩
  · exact (hout i hi).trans (hvalue (argsAt arg i) (x i))
  · exact sum_congr rfl fun i _ => hlog (argsAt arg i) (x i)
  · have hexp : ∀ i < n, ((arg 1).at_ i).isInfinite = false → scratch i = Real.exp (x i) :=
      fun i hi hfin => (hscr i hi).trans (hscratch i hi hfin)
    rw [hbwd, oneSidedBwd_ok sign hs hne h.raw (h.fits 1 le_rfl hone.ge) hexp seed lp m, hone,
      sum_range_succ, sum_range_one, ← add_assoc]
    refine congrArg Except.ok ?_
    congr 1
    · congr 1
      refine sum_congr rfl fun i _ => ?_
      rw [← hraw (seed i) lp (argsAt arg i) (x i)]
      rfl
    · refine sum_congr rfl fun i _ => ?_
      rw [← harg (seed i) lp (argsAt arg i) (x i)]
      rfl

lemma exact_lower (hF : F.Lawful) (h : lower.Valid n arg adj) (hne : (arg 1).len ≠ 0) (x : ℕ → ℝ)
    (rows : ℕ) : lower.Exact F n x arg adj rows := by
  refine h.exact_oneSided hF rfl (fun lb e => e + lb) (fun d => d) (fun _ => rfl) (fun _ _ _ _ => rfl)
    (fun a x => ?_) (fun a x => ?_) (fun s lp a x => ?_) (fun s lp a x => ?_) hne
  · change _ = bounded (a 1) .infinite x
    cases a 1 <;> rfl
  · change _ = boundedLogSlope (a 1) .infinite x
    cases a 1 with
    | infinite => exact (boundedLogSlope_infinite x).symm
    | finite l => exact (boundedLogSlope_lower l x).symm
  · change _ = rawTerm s lp (a 1) .infinite x
    cases a 1 <;> rfl
  · change _ = lowerTerm s lp (a 1) .infinite x
    cases a 1 <;> rfl

lemma exact_upper (hF : F.Lawful) (h : upper.Valid n arg adj) (hne : (arg 1).len ≠ 0) (x : ℕ → ℝ)
    (rows : ℕ) : upper.Exact F n x arg adj rows := by
  refine h.exact_oneSided hF rfl (fun ub e => ub - e) (fun d => -d) (fun _ => rfl) (fun _ _ _ _ => rfl)
    (fun a x => ?_) (fun a x => ?_) (fun s lp a x => ?_) (fun s lp a x => ?_) hne
  · change _ = bounded .infinite (a 1) x
    cases a 1 <;> rfl
  · change _ = boundedLogSlope .infinite (a 1) x
    cases a 1 with
    | infinite => exact (boundedLogSlope_infinite x).symm
    | finite u => exact (boundedLogSlope_upper u x).symm
  · change _ = rawTerm s lp .infinite (a 1) x
    cases a 1 <;> rfl
  · change _ = upperTerm s lp .infinite (a 1) x
    cases a 1 <;> rfl

lemma paired (h : lu.Valid n arg adj) : Paired n (arg 1) (arg 2) :=
  ⟨h.shaped 1 le_rfl (by decide), h.shaped 2 (by decide) le_rfl, h.accepted⟩

lemma exact_lu (hF : F.Lawful) (h : lu.Valid n arg adj) (hr : Readable (arg 1) (arg 2)) (x : ℕ → ℝ)
    (rows : ℕ) : lu.Exact F n x arg adj rows := by
  refine h.exact_of_shares fun c => ?_
  obtain ⟨c', hrun, hleaves⟩ := cluFwd_ok hF h.paired hr x c
  refine ⟨c', hrun, hleaves.out, hleaves.out2, fun scratch hscr seed lp m => ?_⟩
  have hil : ∀ i < n, scratch i = Real.sigmoid (x i) := fun i hi => (hscr i hi).trans (hleaves.scratch i hi)
  refine (cluBwd_ok hF h.paired hr h.raw (h.fits 1 le_rfl (by decide)) (h.fits 2 (by decide) le_rfl) hil
    seed lp m).trans ?_
  rw [show lu.arity + 1 = 3 from rfl, sum_range_succ, sum_range_succ, sum_range_one]
  rfl

lemma exact_offsetMult (hF : F.Lawful) (h : offsetMult.Valid n arg adj)
    (hmu : (arg 1).len ≠ 0 ∨ adj 1 = none) (hsg : (arg 2).len ≠ 0) (x : ℕ → ℝ) (rows : ℕ) :
    offsetMult.Exact F n x arg adj rows := by
  have hm : Shaped n (arg 1) := h.shaped 1 le_rfl (by decide)
  have hs : Shaped n (arg 2) := h.shaped 2 (by decide) le_rfl
  refine h.exact_of_shares fun c => ?_
  obtain ⟨c', hrun, hout, hout2⟩ := offsetMultFwd_ok hF hm hs h.accepted hsg x rows c
  refine ⟨c', hrun, hout, hout2.trans (sum_congr rfl fun i _ => ?_), fun scratch _ seed lp m => ?_⟩
  · exact (logSlope_offsetMult (argsAt arg i) (x i)).symm
  · refine (offsetMultBwd_ok hm hs hmu hsg h.raw (h.fits 1 le_rfl (by decide))
      (h.fits 2 (by decide) le_rfl) seed lp m).trans ?_
    rw [show offsetMult.arity + 1 = 3 from rfl, sum_range_succ, sum_range_succ, sum_range_one,
      ← add_assoc, ← add_assoc]
    rfl

end Valid

/-! ### What reads outside the buffers is not -/

lemma oneSidedFwd_empty {a : Desc (Extended ℝ)} (ha : a.len = 0) (apply : ℝ → ℝ → ℝ) (c : Cells ℝ) :
    oneSidedFwd F apply n x a c = .error .outOfBounds := by
  unfold oneSidedFwd
  dsimp only
  rw [hasInf_empty ha]
  rfl

lemma cluFwd_empty_lower {la : Desc (Extended ℝ)} (hl : la.len = 0) (ua : Desc (Extended ℝ))
    (c : Cells ℝ) : cluFwd F n x la ua c = .error .outOfBounds := by
  unfold cluFwd checkLubBounds
  dsimp only
  rw [Bound.get_empty hl]
  rfl

lemma cluFwd_empty_upper {la ua : Desc (Extended ℝ)} (hl : la.len ≠ 0) (hu : ua.len = 0)
    (hfin : (la.data 0).isInfinite = false) (c : Cells ℝ) :
    cluFwd F n x la ua c = .error .outOfBounds := by
  unfold cluFwd checkLubBounds
  dsimp only
  rw [Bound.get_zero hl, ok_bind, hfin, Bool.false_and, if_neg Bool.false_ne_true, Bound.get_empty hu]
  rfl

lemma offsetMultFwd_empty {mu sg : Desc (Extended ℝ)} (h : Admissible mu sg) (hs : sg.len = 0)
    (rows : ℕ) (c : Cells ℝ) : offsetMultFwd F 0 x mu sg rows c = .error .outOfBounds := by
  unfold offsetMultFwd
  rw [h.check_ok, ok_bind]
  change (pure c >>= _) = _
  rw [pure_bind, if_neg (by omega), read_empty hs]
  rfl

lemma offsetMultBwd_empty {mu sg : Desc (Extended ℝ)} (hm : mu.len = 0) {xAdj sgAdj : Option AdjDesc}
    {d : AdjDesc} (hd : d.len = 0) (seed : ℕ → ℝ) (lp : ℝ) (m : ℕ → ℝ) :
    offsetMultBwd 0 x mu sg xAdj (some d) sgAdj seed lp m = .error .outOfBounds := by
  have hraw : whenPresent xAdj (fun a m => (List.range 0).foldlM (fun m i => do
      let s ← readShared sg i
      a.add i (seed i * s) m) m) m = .ok m := by
    cases xAdj <;> rfl
  unfold offsetMultBwd
  rw [hraw, ok_bind, whenPresent, if_neg (by omega), AdjDesc.add_empty hd]
  rfl

/-- A call is exact if and only if it reads inside the buffers. -/
theorem exact_iff_readsInside (hF : F.Lawful) (h : op.Valid n arg adj) (x : ℕ → ℝ) (rows : ℕ) :
    op.Exact F n x arg adj rows ↔ op.ReadsInside arg adj := by
  have hzero : ∀ k, 1 ≤ k → k ≤ op.arity → (arg k).len = 0 → n = 0 := by
    intro k hk hk' hlen
    obtain hone | hn := h.shaped k hk hk'
    · omega
    · omega
  constructor
  · intro hex
    obtain ⟨c', hfwd, -, -, hbwd⟩ := hex ⟨0, 0, 0⟩
    cases op with
    | lower =>
      intro hlen
      rw [forward, clowerFwd, oneSidedFwd_empty hlen] at hfwd
      cases hfwd
    | upper =>
      intro hlen
      rw [forward, cupperFwd, oneSidedFwd_empty hlen] at hfwd
      cases hfwd
    | lu =>
      have hl : (arg 1).len ≠ 0 := by
        intro hlen
        rw [forward, cluFwd_empty_lower hlen] at hfwd
        cases hfwd
      refine ⟨hl, ?_⟩
      by_contra hno
      obtain ⟨hu, hfin⟩ := not_or.1 hno
      have hfin' : ((arg 1).data 0).isInfinite = false := by
        cases hd : (arg 1).data 0 with
        | infinite => exact absurd hd hfin
        | finite v => rfl
      rw [forward, cluFwd_empty_upper hl (not_not.1 hu) hfin'] at hfwd
      cases hfwd
    | offsetMult =>
      have hadm : Admissible (arg 1) (arg 2) := h.accepted
      have hs : (arg 2).len ≠ 0 := by
        intro hlen
        obtain rfl := hzero 2 (by decide) le_rfl hlen
        rw [forward, offsetMultFwd_empty hadm hlen] at hfwd
        cases hfwd
      refine ⟨hs, ?_⟩
      by_contra hno
      obtain ⟨hm, hsome⟩ := not_or.1 hno
      obtain ⟨d, hd⟩ := Option.ne_none_iff_exists'.1 hsome
      have hm := not_not.1 hm
      obtain rfl := hzero 1 le_rfl (by decide) hm
      obtain ⟨δ, -, hrun⟩ := hbwd c'.scratch (fun i _ => rfl) 0 0
      have hlen : d.len = 0 := (h.fits 1 le_rfl (by decide) d hd).trans hm
      have hrun := hrun 0
      rw [backward, hd, offsetMultBwd_empty hm hlen] at hrun
      cases hrun
  · intro hin
    cases op with
    | lower => exact h.exact_lower hF hin x rows
    | upper => exact h.exact_upper hF hin x rows
    | lu =>
      obtain ⟨hl, hu⟩ := hin
      refine h.exact_lu hF ⟨hl, ?_⟩ x rows
      by_cases hlen : (arg 2).len = 0
      · -- there are no elements, so that the lower bound is one shared infinity
        have hn := hzero 2 (by decide) le_rfl hlen
        refine Or.inr ⟨?_, ?_⟩
        · rw [Bound.varies_ofDesc, decide_eq_false_iff_not]
          obtain hone | hlen₁ := h.shaped 1 le_rfl (by decide)
          · omega
          · omega
        · rw [hu.resolve_left (not_not.2 hlen)]
          rfl
      · exact Or.inl hlen
    | offsetMult => exact h.exact_offsetMult hF hin.2 hin.1 x rows

end Elementwise

end Stanli.Constrain
