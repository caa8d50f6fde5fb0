import Stanli.Constrain.CholeskyForward
import Stanli.Constrain.ElementCorrect

/-!
# The structured operations are exact

The forward of a structured operation leaves the constrained values of each leaf, the log-Jacobians of all
leaves, and for each leaf what its pullback reads (`StructuredKind.Kept`); a later leaf leaves that alone.
The backward, given these outputs and this scratch, adds the vector-Jacobian product
(`StructuredKind.exact`).
-/

namespace Stanli.Constrain

open Finset Function

/-- What Stan Math documents of the transforms that the kernels call. -/
structure StanMath.Documented (S : StanMath ℝ) : Prop where
  simplex : ∀ n y lp, (∀ i < n + 1, (S.simplexConstrain n y lp).1 i = simplexValue n y i) ∧
    (S.simplexConstrain n y lp).2 = lp + simplexLogJacobian n y
  ordered : ∀ n y lp, (∀ i < n, (S.orderedConstrain n y lp).1 i = orderedValue false y i) ∧
    (S.orderedConstrain n y lp).2 = lp + orderedLogJacobian false n y
  positiveOrdered : ∀ n y lp,
    (∀ i < n, (S.positiveOrderedConstrain n y lp).1 i = orderedValue true y i) ∧
    (S.positiveOrderedConstrain n y lp).2 = lp + orderedLogJacobian true n y

/-- The raw values of a leaf. -/
noncomputable def Geometry.block (g : Geometry) (x : ℕ → ℝ) (b : ℕ) : ℕ → ℝ :=
  mapAt x (b * g.innerRaw) g.innerRaw

namespace StructuredKind

variable {F : Elementary ℝ} {S : StanMath ℝ} {kind : StructuredKind} {g : Geometry} {x : ℕ → ℝ} {b : ℕ}

/-! ## The transform of a leaf -/

noncomputable section

variable (kind : StructuredKind) (g : Geometry)

/-- The constrained values of a leaf, where a matrix is stored by columns. -/
def value (y : ℕ → ℝ) (i : ℕ) : ℝ :=
  match kind with
  | simplex => simplexValue g.innerRaw y i
  | ordered => orderedValue false y i
  | positiveOrdered => orderedValue true y i
  | choleskyCorr => cholValue y (i % g.dim2) (i / g.dim2)

def logJacobian (y : ℕ → ℝ) : ℝ :=
  match kind with
  | simplex => simplexLogJacobian g.innerRaw y
  | ordered => orderedLogJacobian false g.innerRaw y
  | positiveOrdered => orderedLogJacobian true g.innerRaw y
  | choleskyCorr => cholLogJacobian g.dim2 y

/-- The derivative of the weighted outputs of a leaf by a raw value. -/
def pullback (s : ℕ → ℝ) (lp : ℝ) (y : ℕ → ℝ) (k : ℕ) : ℝ :=
  match kind with
  | simplex => simplexPullback g.innerRaw s lp y k
  | ordered => orderedPullback false g.innerRaw s lp y k
  | positiveOrdered => orderedPullback true g.innerRaw s lp y k
  | choleskyCorr => cholPullback g.dim2 s lp y k

/-- The leaves that a declaration of the kind has. -/
def Declares : Prop :=
  match kind with
  | simplex => g.dim2 = g.innerRaw + 1
  | ordered => g.dim2 = g.innerRaw
  | positiveOrdered => g.dim2 = g.innerRaw
  | choleskyCorr => g.dim3 = g.dim2 ∧ g.innerRaw = triangle g.dim2

end

theorem hasDerivAt_leaf (hg : kind.Declares g) {k : ℕ} (hk : k < g.innerRaw) (s : ℕ → ℝ) (lp : ℝ)
    (y : ℕ → ℝ) : HasDerivAt (fun t => (∑ i ∈ range (g.innerCon kind), s i *
      kind.value g (update y k t) i) + lp * kind.logJacobian g (update y k t))
      (kind.pullback g s lp y k) (y k) := by
  cases kind with
  | simplex =>
    have hcon : g.innerCon simplex = g.innerRaw + 1 := hg
    rw [hcon]
    exact hasDerivAt_simplex hk s lp y
  | ordered =>
    have hcon : g.innerCon ordered = g.innerRaw := hg
    rw [hcon]
    exact hasDerivAt_ordered false hk s lp y
  | positiveOrdered =>
    have hcon : g.innerCon positiveOrdered = g.innerRaw := hg
    rw [hcon]
    exact hasDerivAt_ordered true hk s lp y
  | choleskyCorr =>
    have hcon : g.innerCon choleskyCorr = g.dim2 * g.dim2 := by rw [Geometry.innerCon, hg.1]
    rw [hcon]
    exact hasDerivAt_chol g.dim2 s lp y k

/-! ## The transform of a batch -/

section Vjp

variable (kind g)

/-- The constrained values and the log-Jacobians of all leaves, weighted by the seeds. -/
noncomputable def objective (seed : ℕ → ℝ) (lp : ℝ) (x : ℕ → ℝ) : ℝ :=
  (∑ b ∈ range g.nb, ∑ i ∈ range (g.innerCon kind),
    seed (b * g.innerCon kind + i) * kind.value g (g.block x b) i) +
    lp * ∑ b ∈ range g.nb, kind.logJacobian g (g.block x b)

/-- The derivatives of the weighted outputs by the raw values of all leaves. -/
def IsVjp (seed : ℕ → ℝ) (lp : ℝ) (x δ : ℕ → ℝ) : Prop :=
  ∀ j < g.nb * g.innerRaw, HasDerivAt (fun t => kind.objective g seed lp (update x j t)) (δ j) (x j)

/-- What the leaf of a raw value passes on to it. -/
noncomputable def batchPullback (seed : ℕ → ℝ) (lp : ℝ) (x : ℕ → ℝ) (j : ℕ) : ℝ :=
  kind.pullback g (fun i => seed (j / g.innerRaw * g.innerCon kind + i)) lp (g.block x (j / g.innerRaw))
    (j % g.innerRaw)

end Vjp

/-- A leaf as a function of one raw value. -/
lemma block_update (g : Geometry) (x : ℕ → ℝ) (t : ℝ) {k : ℕ} (hk : k < g.innerRaw) (b b' : ℕ) :
    g.block (update x (b * g.innerRaw + k) t) b' =
      if b' = b then update (g.block x b) k t else g.block x b' := by
  funext i
  unfold Geometry.block mapAt
  by_cases hi : i < g.innerRaw
  · have hiff : b' * g.innerRaw + i = b * g.innerRaw + k ↔ b' = b ∧ i = k := by
      constructor
      · exact fun h => place_inj hi hk h
      · rintro ⟨rfl, rfl⟩
        rfl
    by_cases hb : b' = b
    · subst hb
      rw [if_pos rfl]
      by_cases hik : i = k
      · subst hik
        rw [update_self, if_pos hi, update_self]
      · rw [update_of_ne hik, if_pos hi, if_pos hi, update_of_ne (fun h => hik (hiff.1 h).2)]
    · rw [if_neg hb, if_pos hi, if_pos hi, update_of_ne (fun h => hb (hiff.1 h).1)]
  · rw [if_neg hi]
    split
    · rw [update_of_ne (by omega), if_neg hi]
    · exact (if_neg hi).symm

theorem batchPullback_isVjp (hg : kind.Declares g) (seed : ℕ → ℝ) (lp : ℝ) (x : ℕ → ℝ) :
    kind.IsVjp g seed lp x (kind.batchPullback g seed lp x) := by
  intro j hj
  have hpos : 0 < g.innerRaw := Nat.pos_of_ne_zero fun h => by simp [h] at hj
  set b := j / g.innerRaw with hb
  set k := j % g.innerRaw with hk
  have hklt : k < g.innerRaw := Nat.mod_lt _ hpos
  have hblt : b < g.nb := Nat.div_lt_of_lt_mul (by rw [Nat.mul_comm]; exact hj)
  have hplace : b * g.innerRaw + k = j := Nat.div_add_mod' j g.innerRaw
  have hxj : g.block x b k = x j := by rw [Geometry.block, mapAt, if_pos hklt, hplace]
  set leaf := fun b' t => (∑ i ∈ range (g.innerCon kind), seed (b' * g.innerCon kind + i) *
    kind.value g (g.block (update x j t) b') i) + lp * kind.logJacobian g (g.block (update x j t) b')
    with hleaf
  have hsum : ∀ t, kind.objective g seed lp (update x j t) = ∑ b' ∈ range g.nb, leaf b' t := by
    intro t
    rw [objective, mul_sum, ← sum_add_distrib]
  have hderiv : HasDerivAt (fun t => ∑ b' ∈ range g.nb, leaf b' t)
      (∑ b' ∈ range g.nb, if b' = b then kind.batchPullback g seed lp x j else 0) (x j) := by
    refine Elementwise.hasDerivAt_sum_reads (fun b' => b' = b) (fun b' _ h => ?_) fun b' _ h t => ?_
    · have hleaf' := hasDerivAt_leaf hg hklt (fun i => seed (b * g.innerCon kind + i)) lp (g.block x b)
      rw [h, ← hxj]
      change HasDerivAt _ (kind.pullback g (fun i => seed (b * g.innerCon kind + i)) lp (g.block x b) k) _
      simp only [hleaf, ← hplace, block_update g x _ hklt, if_true]
      exact hleaf'
    · simp only [hleaf, ← hplace, block_update g x _ hklt, if_neg h]
  simp only [hsum]
  refine hderiv.congr_deriv ?_
  rw [sum_ite_eq', if_pos (mem_range.2 hblt)]

/-! ## What a leaf leaves -/

section Kept

variable (kind g)

/-- The scratch that the leaves share. -/
def keptShared : ℕ :=
  match kind with
  | simplex => 0
  | ordered => 0
  | positiveOrdered => 0
  | choleskyCorr => 1

/-- The scratch of a leaf. -/
def keptWidth : ℕ :=
  match kind with
  | simplex => 0
  | ordered => g.innerRaw
  | positiveOrdered => g.innerRaw
  | choleskyCorr => 3 * g.innerRaw + g.dim2

def keptAt (b : ℕ) : ℕ := kind.keptShared + b * kind.keptWidth g

/-- What the pullback of a leaf reads of the scratch. -/
def Kept (y : ℕ → ℝ) (b : ℕ) (scratch : ℕ → ℝ) : Prop :=
  match kind with
  | simplex => True
  | ordered => ∀ t < g.innerRaw - 1, scratch (b * g.innerRaw + t) = Real.exp (y (t + 1))
  | positiveOrdered => ∀ t < g.innerRaw, scratch (b * g.innerRaw + t) = Real.exp (y t)
  | choleskyCorr => Retains g.dim2 y (Retained.ofScratch g.innerRaw g.dim2 b scratch) ∧ scratch 0 = 1

end Kept

lemma structuredScratch_eq (kind : StructuredKind) (g : Geometry) :
    structuredScratch kind g = kind.keptShared + g.nb * kind.keptWidth g := by
  cases kind with
  | simplex => rfl
  | ordered => exact (Nat.zero_add _).symm
  | positiveOrdered => exact (Nat.zero_add _).symm
  | choleskyCorr => rfl

/-- A run comes before the later ones. -/
lemma run_le {b b' : ℕ} (h : b < b') (w : ℕ) : b * w + w ≤ b' * w := by
  rw [← Nat.succ_mul]
  exact Nat.mul_le_mul_right w h

/-- Nothing else of the scratch matters. -/
lemma Kept.congr {y scratch scratch' : ℕ → ℝ} (hg : kind.Declares g) (h : kind.Kept g y b scratch)
    (heq : ∀ p, p < kind.keptShared ∨ kind.keptAt g b ≤ p ∧ p < kind.keptAt g b + kind.keptWidth g →
      scratch' p = scratch p) : kind.Kept g y b scratch' := by
  cases kind with
  | simplex => trivial
  | ordered | positiveOrdered =>
    intro t ht
    refine (heq _ (Or.inr ?_)).trans (h t ht)
    rw [keptAt, keptShared, keptWidth, Nat.zero_add]
    omega
  | choleskyCorr =>
    obtain ⟨hret, hone⟩ := h
    refine ⟨hret.congr (fun p hp hp' => heq p (Or.inr ⟨hp, ?_⟩)) hg.2,
      (heq 0 (Or.inl Nat.one_pos)).trans hone⟩
    rw [← hg.2] at hp'
    exact hp'

/-- What one leaf leaves; the results of the leaves before it stay. -/
structure LeafDone (kind : StructuredKind) (g : Geometry) (y : ℕ → ℝ) (b : ℕ) (r r' : ℝ × Cells ℝ) :
    Prop where
  out : ∀ i < g.innerCon kind, r'.2.out (b * g.innerCon kind + i) = kind.value g y i
  lp : r'.1 = r.1 + kind.logJacobian g y
  kept : kind.Kept g y b r'.2.scratch
  outFrame : ∀ p < b * g.innerCon kind, r'.2.out p = r.2.out p
  scratchFrame : ∀ p < kind.keptAt g b, r'.2.scratch p = r.2.scratch p

lemma copyOut_eq (off con : ℕ) (v : ℕ → ℝ) (c : Cells ℝ) :
    copyOut off con v c = { c with out := storeRun c.out off con v } := by
  refine foldl_range_inv (fun i (c' : Cells ℝ) => c' = { c with out := storeRun c.out off i v }) ?_ ?_
  · rintro i - c' rfl
    rw [storeRun_succ]
    rfl
  · rw [storeRun_zero]

lemma storeScratch_eq (off n : ℕ) (e : ℕ → ℝ) (c : Cells ℝ) :
    (List.range n).foldl (fun c t => c.setScratch (off + t) (e t)) c =
      { c with scratch := storeRun c.scratch off n e } := by
  refine foldl_range_inv (fun i (c' : Cells ℝ) => c' = { c with scratch := storeRun c.scratch off i e })
    ?_ ?_
  · rintro i - c' rfl
    rw [storeRun_succ]
    rfl
  · rw [storeRun_zero]

/-- A leaf that copies its values to the output. -/
lemma LeafDone.of_copy {y v scratch : ℕ → ℝ} {r : ℝ × Cells ℝ} {lp : ℝ}
    (hv : ∀ i < g.innerCon kind, v i = kind.value g y i) (hlp : lp = r.1 + kind.logJacobian g y)
    (hkept : kind.Kept g y b scratch) (hframe : ∀ p < kind.keptAt g b, scratch p = r.2.scratch p) :
    LeafDone kind g y b r (lp, { r.2 with
      out := storeRun r.2.out (b * g.innerCon kind) (g.innerCon kind) v
      scratch := scratch }) where
  out i hi := (storeRun_of_lt _ _ _ hi).trans (hv i hi)
  lp := hlp
  kept := hkept
  outFrame _ hp := storeRun_of_not _ _ (Or.inl hp)
  scratchFrame := hframe

lemma leaf_ok (hF : F.Lawful) (hS : S.Documented) (hg : kind.Declares g) (x : ℕ → ℝ) (b : ℕ)
    (r : ℝ × Cells ℝ) (hone : kind = choleskyCorr → r.2.scratch 0 = 1) :
    ∃ r', structuredLeaf F S kind g x r b = .ok r' ∧ LeafDone kind g (g.block x b) b r r' := by
  unfold structuredLeaf
  dsimp only
  cases kind with
  | simplex =>
    have hcon : g.innerCon simplex = g.innerRaw + 1 := hg
    obtain ⟨hvalue, hjac⟩ := hS.simplex g.innerRaw (g.block x b) r.1
    dsimp only
    rw [copyOut_eq]
    exact ⟨_, rfl, .of_copy (fun i hi => hvalue i (hcon ▸ hi)) hjac trivial fun _ _ => rfl⟩
  | ordered =>
    have hcon : g.innerCon ordered = g.innerRaw := hg
    obtain ⟨hvalue, hjac⟩ := hS.ordered g.innerRaw (g.block x b) r.1
    dsimp only
    rw [copyOut_eq, storeScratch_eq]
    refine ⟨_, rfl, .of_copy (fun i hi => hvalue i (hcon ▸ hi)) hjac (fun t ht => ?_) fun p hp => ?_⟩
    · rw [storeRun_of_lt _ _ _ ht]
      exact hF.exp _
    · rw [keptAt, keptShared, Nat.zero_add] at hp
      exact storeRun_of_not _ _ (Or.inl hp)
  | positiveOrdered =>
    have hcon : g.innerCon positiveOrdered = g.innerRaw := hg
    obtain ⟨hvalue, hjac⟩ := hS.positiveOrdered g.innerRaw (g.block x b) r.1
    dsimp only
    rw [copyOut_eq, storeScratch_eq]
    refine ⟨_, rfl, .of_copy (fun i hi => hvalue i (hcon ▸ hi)) hjac (fun t ht => ?_) fun p hp => ?_⟩
    · rw [storeRun_of_lt _ _ _ ht]
      exact hF.exp _
    · rw [keptAt, keptShared, Nat.zero_add] at hp
      exact storeRun_of_not _ _ (Or.inl hp)
  | choleskyCorr =>
    have hcon : g.innerCon choleskyCorr = g.dim2 * g.dim2 := by rw [Geometry.innerCon, hg.1]
    have hraw : g.innerRaw = triangle g.dim2 := hg.2
    have hflag : (r.2.scratch 0 != 0) = true := by
      rw [hone rfl]
      exact bne_iff_ne.2 one_ne_zero
    obtain ⟨s, hrun, hdone⟩ := choleskyCorrRevValues_ok hF g.dim2 b (g.block x b) r.2.scratch r.1
    have hret := hdone.retains
    have hframe := hdone.frame
    rw [← hraw] at hrun hret hframe
    have hrun' : choleskyCorrRevValues F g.innerRaw g.dim2 (retainedAt g.innerRaw g.dim2 b)
        (mapAt x (b * g.innerRaw) g.innerRaw) r.1 r.2.scratch (r.2.scratch 0 != 0) = .ok s := by
      rw [hflag]
      exact hrun
    -- the leaf keeps the mark in the first cell
    have hbase : 0 < retainedAt g.innerRaw g.dim2 b := Nat.lt_of_lt_of_le Nat.one_pos (Nat.le_add_right _ _)
    have hmark : ∀ p, 0 < p → update s.scratch 0 1 p = s.scratch p := fun p hp => update_of_ne hp.ne' _ _
    dsimp only
    rw [hrun', ok_bind, copyOut_eq, hdone.eligible, if_pos rfl]
    refine ⟨_, rfl, .of_copy (fun i hi => ?_) hdone.lp ⟨?_, update_self 0 (1 : ℝ) s.scratch⟩
      fun p hp => ?_⟩
    · have hi : i < g.dim2 * g.dim2 := hcon ▸ hi
      have hpos : 0 < g.dim2 := Nat.pos_of_ne_zero fun h => by
        rw [h] at hi
        omega
      have hx := hdone.x (i % g.dim2) (Nat.mod_lt _ hpos) (i / g.dim2) (Nat.div_lt_of_lt_mul hi)
      rw [Nat.div_add_mod'] at hx
      exact hx
    · exact hret.congr (fun p hp _ => hmark p (Nat.lt_of_lt_of_le hbase hp)) hraw
    · by_cases hp0 : p = 0
      · rw [hp0, hone rfl]
        exact update_self 0 (1 : ℝ) s.scratch
      · exact (hmark p (Nat.pos_of_ne_zero hp0)).trans (hframe p (Or.inl hp))

/-! ## Calls -/

/-- The forward of all leaves. -/
theorem structuredFwd_ok (hF : F.Lawful) (hS : S.Documented) (hg : kind.Declares g) (x : ℕ → ℝ)
    (c : Cells ℝ) : ∃ c', structuredFwd F S kind g x c = .ok c' ∧
      (∀ b < g.nb, ∀ i < g.innerCon kind,
        c'.out (b * g.innerCon kind + i) = kind.value g (g.block x b) i) ∧
      c'.out2 = ∑ b ∈ range g.nb, kind.logJacobian g (g.block x b) ∧
      ∀ b < g.nb, kind.Kept g (g.block x b) b c'.scratch := by
  have hloop : ∀ c₀ : Cells ℝ, (kind = choleskyCorr → c₀.scratch 0 = 1) →
      ∃ r, (List.range g.nb).foldlM (structuredLeaf F S kind g x) (0, c₀) = .ok r ∧
        r.1 = ∑ b ∈ range g.nb, kind.logJacobian g (g.block x b) ∧
        (∀ b < g.nb, ∀ i < g.innerCon kind,
          r.2.out (b * g.innerCon kind + i) = kind.value g (g.block x b) i) ∧
        (∀ b < g.nb, kind.Kept g (g.block x b) b r.2.scratch) ∧
        (kind = choleskyCorr → r.2.scratch 0 = 1) := by
    intro c₀ hone
    refine foldlM_range_ok (fun b (r : ℝ × Cells ℝ) =>
      r.1 = ∑ b' ∈ range b, kind.logJacobian g (g.block x b') ∧
      (∀ b' < b, ∀ i < g.innerCon kind,
        r.2.out (b' * g.innerCon kind + i) = kind.value g (g.block x b') i) ∧
      (∀ b' < b, kind.Kept g (g.block x b') b' r.2.scratch) ∧
      (kind = choleskyCorr → r.2.scratch 0 = 1)) ?_ ?_
    · rintro b hb r ⟨hlp, hout, hkept, hone⟩
      obtain ⟨r', hrun, hdone⟩ := leaf_ok hF hS hg x b r hone
      refine ⟨r', hrun, ?_, fun b' hb' i hi => ?_, fun b' hb' => ?_, fun hkind => ?_⟩
      · rw [hdone.lp, hlp, sum_range_succ]
      · obtain hlt | rfl := Nat.lt_succ_iff_lt_or_eq.1 hb'
        · have hrun := run_le hlt (g.innerCon kind)
          rw [hdone.outFrame _ (by omega), hout b' hlt i hi]
        · exact hdone.out i hi
      · obtain hlt | rfl := Nat.lt_succ_iff_lt_or_eq.1 hb'
        · have hrun := run_le hlt (kind.keptWidth g)
          refine (hkept b' hlt).congr hg fun p hp => hdone.scratchFrame p ?_
          unfold keptAt at hp ⊢
          omega
        · exact hdone.kept
      · rw [hdone.scratchFrame 0 ?_, hone hkind]
        rw [hkind]
        exact Nat.lt_of_lt_of_le Nat.one_pos (Nat.le_add_right _ _)
    · exact ⟨rfl, fun b hb => absurd hb (Nat.not_lt_zero b), fun b hb => absurd hb (Nat.not_lt_zero b),
        hone⟩
  have hfinish : ∀ c₀ : Cells ℝ, (kind = choleskyCorr → c₀.scratch 0 = 1) →
      structuredFwd F S kind g x c = (do
        let r ← (List.range g.nb).foldlM (structuredLeaf F S kind g x) (0, c₀)
        return { r.2 with out2 := r.1 } : Except Failure (Cells ℝ)) →
      ∃ c', structuredFwd F S kind g x c = .ok c' ∧
        (∀ b < g.nb, ∀ i < g.innerCon kind,
          c'.out (b * g.innerCon kind + i) = kind.value g (g.block x b) i) ∧
        c'.out2 = ∑ b ∈ range g.nb, kind.logJacobian g (g.block x b) ∧
        ∀ b < g.nb, kind.Kept g (g.block x b) b c'.scratch := by
    intro c₀ hone heq
    obtain ⟨r, hrun, hlp, hout, hkept, -⟩ := hloop c₀ hone
    rw [heq, hrun, ok_bind]
    exact ⟨_, rfl, hout, hlp, hkept⟩
  cases kind with
  | simplex | ordered | positiveOrdered =>
    exact hfinish c (fun h => StructuredKind.noConfusion h) rfl
  | choleskyCorr =>
    refine hfinish (c.setScratch 0 1) (fun _ => ?_) rfl
    rw [Cells.setScratch_scratch, update_self]

/-- What the leaves add, collected in the cells of the raw values. -/
lemma sum_leafShare (kind : StructuredKind) (g : Geometry) {a : AdjDesc} (ha : a.len = g.nb * g.innerRaw)
    (seed : ℕ → ℝ) (lp : ℝ) (x : ℕ → ℝ) :
    ∑ b ∈ range g.nb, leafShare a b g.innerRaw
        (kind.pullback g (fun i => seed (b * g.innerCon kind + i)) lp (g.block x b)) =
      spread (some a) (kind.batchPullback g seed lp x) := by
  change _ = ∑ j ∈ range a.len, _
  rw [ha, sum_range_mul]
  refine sum_congr rfl fun b _ => sum_congr rfl fun k hk => ?_
  have hk := mem_range.1 hk
  have hdiv : (b * g.innerRaw + k) / g.innerRaw = b := by
    rw [Nat.add_comm, Nat.add_mul_div_right _ _ (by omega), Nat.div_eq_of_lt hk, Nat.zero_add]
  have hmod : (b * g.innerRaw + k) % g.innerRaw = k := by
    rw [Nat.mul_add_mod_self_right, Nat.mod_eq_of_lt hk]
  rw [batchPullback, hdiv, hmod]
  rfl

/-- The backward of all leaves. -/
theorem structuredBwd_ok (hF : F.Lawful) (hg : kind.Declares g) {out scratch : ℕ → ℝ}
    (hout : ∀ b < g.nb, ∀ i < g.innerCon kind,
      out (b * g.innerCon kind + i) = kind.value g (g.block x b) i)
    (hkept : ∀ b < g.nb, kind.Kept g (g.block x b) b scratch) {adj : Option AdjDesc}
    (hadj : Fits (g.nb * g.innerRaw) adj) (seed : ℕ → ℝ) (lp : ℝ) (m : ℕ → ℝ) :
    structuredBwd F S kind g x out scratch seed lp adj m =
      .ok (m + spread adj (kind.batchPullback g seed lp x)) := by
  cases adj with
  | none =>
    rw [spread, add_zero]
    rfl
  | some a =>
    have hlen := hadj a rfl
    have hin : ∀ b < g.nb, ∀ i < g.innerRaw, b * g.innerRaw + i < a.len := by
      intro b hb i hi
      have hrun := run_le hb g.innerRaw
      omega
    rw [← sum_leafShare kind g hlen seed lp x]
    cases kind with
    | simplex =>
      have hcon : g.innerCon simplex = g.innerRaw + 1 := hg
      refine foldlM_range_add g.nb (fun b hb m => ?_) m
      dsimp only
      rw [hcon]
      exact simplexBwdBatch_ok hF (fun j hj => hcon ▸ hout b hb j (hcon.symm ▸ hj)) (hin b hb) lp m
    | ordered => exact foldlM_range_add g.nb (fun b hb m => orderedBwdBatch_ok (hkept b hb) (hin b hb) lp m) m
    | positiveOrdered =>
      exact foldlM_range_add g.nb (fun b hb m => positiveOrderedBwdBatch_ok (hkept b hb) (hin b hb) lp m) m
    | choleskyCorr =>
      have hraw : g.innerRaw = triangle g.dim2 := hg.2
      refine foldlM_range_add g.nb (fun b hb m => ?_) m
      obtain ⟨hret, hone⟩ := hkept b hb
      have hmark : scratch 0 ≠ 0 := hone ▸ one_ne_zero
      dsimp only
      rw [if_pos hmark]
      have hx : ∀ k < triangle g.dim2, x (b * triangle g.dim2 + k) = g.block x b k := fun k hk => by
        rw [Geometry.block, mapAt, hraw, if_pos hk]
      rw [hraw] at hret
      have h : cholBwdBatch F b (triangle g.dim2) g.dim2 (g.innerCon choleskyCorr) x scratch seed lp a m =
          _ := cholBwdBatch_ok hF hx hret (hraw ▸ hin b hb) lp m
      rw [← hraw] at h
      exact h

/-- A call that leaves the constrained values and the log-Jacobian, and adds their vector-Jacobian
product, whatever else the outputs and the scratch hold. -/
def Exact (kind : StructuredKind) (F : Elementary ℝ) (S : StanMath ℝ) (g : Geometry) (x : ℕ → ℝ)
    (adj : Option AdjDesc) : Prop :=
  ∀ c : Cells ℝ, ∃ c', structuredFwd F S kind g x c = .ok c' ∧
    (∀ b < g.nb, ∀ i < g.innerCon kind,
      c'.out (b * g.innerCon kind + i) = kind.value g (g.block x b) i) ∧
    c'.out2 = ∑ b ∈ range g.nb, kind.logJacobian g (g.block x b) ∧
    ∀ out scratch : ℕ → ℝ, (∀ k < g.nb * g.innerCon kind, out k = c'.out k) →
      (∀ k < structuredScratch kind g, scratch k = c'.scratch k) → ∀ (seed : ℕ → ℝ) (lp : ℝ),
        ∃ δ, kind.IsVjp g seed lp x δ ∧ ∀ m,
          structuredBwd F S kind g x out scratch seed lp adj m = .ok (m + spread adj δ)

theorem exact (hF : F.Lawful) (hS : S.Documented) (hg : kind.Declares g) {adj : Option AdjDesc}
    (hadj : Fits (g.nb * g.innerRaw) adj) (x : ℕ → ℝ) : kind.Exact F S g x adj := by
  intro c
  obtain ⟨c', hrun, hout, hout2, hkept⟩ := structuredFwd_ok hF hS hg x c
  refine ⟨c', hrun, hout, hout2, fun out scratch hsame hscratch seed lp =>
    ⟨_, batchPullback_isVjp hg seed lp x, fun m => ?_⟩⟩
  refine structuredBwd_ok hF hg (fun b hb i hi => ?_) (fun b hb => ?_) hadj seed lp m
  · have hrun := run_le hb (g.innerCon kind)
    rw [hsame _ (by omega), hout b hb i hi]
  · refine (hkept b hb).congr hg fun p hp => hscratch p ?_
    have hrun := run_le hb (kind.keptWidth g)
    rw [structuredScratch_eq]
    unfold keptAt at hp
    omega

end StructuredKind

end Stanli.Constrain
