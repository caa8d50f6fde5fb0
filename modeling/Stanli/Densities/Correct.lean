import Mathlib.Analysis.SpecialFunctions.Gamma.Deriv
import Stanli.Collapse.Density
import Stanli.Densities.Backward
import Stanli.Densities.FusedSound
import Stanli.Lib.Checks

/-!
# The fused densities are sums of observation terms

A forward call leaves, for every choice of each argument as one value or one for each observation, the
sum of what it keeps of the log density and the sums of its partial derivatives (`SummedExact`); the
elementwise form leaves both for each observation (`ElementExact`).  The backward adds the seed times
these partials to the adjoints of the active arguments, in its full and its micro form
(`BackwardExact`).  With the functions of analysis the elementary functions are lawful
(`realElementary_lawful`).
-/

namespace Stanli.Densities

open Broadcast Finset
open Collapse (Desc)

variable {d : FusedDensity} {ins : ℕ → Desc ℝ} {N outLen variant : ℕ} {c c' : Cells ℝ}

/-! ## The functions of analysis -/

section Analysis

open Real

/-- The functions and the constants of analysis. -/
noncomputable def realElementary : Elementary ℝ where
  log := Real.log
  log1p x := Real.log (1 + x)
  log1m x := Real.log (1 - x)
  lgamma x := Real.log (Gamma x)
  digamma := deriv fun x => Real.log (Gamma x)
  negLogSqrtTwoPi := Collapse.negLogSqrtTwoPi
  logPi := Real.log π
  logSqrtPi := Real.log √π
  logZero := 0

theorem realElementary_lawful : realElementary.Lawful where
  log x hx := hasDerivAt_log hx.ne'
  log1p x hx := by
    have h := ((hasDerivAt_id x).const_add 1).log (by simp only [id]; linarith)
    apply h.congr_deriv
    simp
  log1m x hx := by
    have h := ((hasDerivAt_id x).const_sub 1).log (by simp only [id]; linarith)
    apply h.congr_deriv
    simp [neg_div]
  lgamma x hx := by
    have hne : ∀ m : ℕ, x ≠ -m := by
      intro m hm
      have hpos : (0 : ℝ) ≤ m := Nat.cast_nonneg m
      linarith
    exact ((differentiableAt_Gamma hne).log (Gamma_pos_of_pos hx).ne').hasDerivAt

end Analysis

/-! ## Calls -/

/-- The arguments of an observation. -/
def observed (ins : ℕ → Desc ℝ) (n k : ℕ) : ℝ := (ins k).at_ n

/-- The arguments of a call are in the support, and each has one value or one for each of `N`
observations.  A sum where each has one value is of one observation. -/
structure Call (d : FusedDensity) (variant : ℕ) (ins : ℕ → Desc ℝ) (N outLen : ℕ) : Prop where
  shape : ∀ k < d.arity, (ins k).len = 1 ∨ (ins k).len = N
  support : ∀ k < d.arity, ∀ j < (ins k).len, d.support k ((ins k).data j)
  element : variant.testBit 6 = true → outLen = N
  summed : variant.testBit 6 = false → outLen = 1 ∧ ((∀ k < d.arity, (ins k).len = 1) → N = 1)

/-- A sum over the observations: its value, the partials of each entry of an active argument, and the
mark that there are partials. -/
structure SummedExact (F : Elementary ℝ) (d : FusedDensity) (variant : ℕ)
    (dropped : (ℕ → ℝ) → ℝ) (ins : ℕ → Desc ℝ) (N : ℕ) (c' : Cells ℝ) : Prop where
  value : c'.out 0 = ∑ n ∈ range N, (d.term F (observed ins n) - dropped (observed ins n))
  partials : ∀ k < d.arity, (activityMask d.arity variant).testBit k = true → ∀ j < (ins k).len,
    c'.scratch (argOffset (fun k => (ins k).len) k + j) =
      ∑ n ∈ range N with (ins k).slot n = j, d.dTerm F k (observed ins n)
  connected : c'.scratch (argOffset (fun k => (ins k).len) d.arity) =
    if N = 0 ∨ activityMask d.arity variant = 0 then 0 else 1

/-- The same for each observation. -/
structure ElementExact (F : Elementary ℝ) (d : FusedDensity) (variant : ℕ)
    (dropped : (ℕ → ℝ) → ℝ) (ins : ℕ → Desc ℝ) (N : ℕ) (c' : Cells ℝ) : Prop where
  value : ∀ n < N, c'.out n = d.term F (observed ins n) - dropped (observed ins n)
  partials : ∀ k < d.arity, (activityMask d.arity variant).testBit k = true → ∀ n < N,
    c'.scratch (k * N + n) = d.dTerm F k (observed ins n)
  connected : ∀ n < N, c'.scratch (d.arity * N + n) = if activityMask d.arity variant = 0 then 0 else 1

/-! ## Views of buffers -/

section Views

lemma size_withView (b : Desc ℝ) : (withView b).size = b.len := by
  unfold withView
  split
  · rename_i h
    exact h.symm
  · rfl

lemma isScalar_withView (b : Desc ℝ) : (withView b).isScalar = decide (b.len = 1) := by
  unfold withView
  split <;> simp [View.isScalar, *]

lemma slot_withView (b : Desc ℝ) (n : ℕ) : (withView b).slot n = b.slot n := by
  rw [View.slot, isScalar_withView, Desc.slot]
  simp

lemma entry_withView (b : Desc ℝ) (n : ℕ) : (withView b).entry n = b.at_ n := by
  unfold withView Desc.at_ Desc.slot
  split <;> rfl

lemma Call.observed_summed (h : Call d variant ins N outLen) (hsum : variant.testBit 6 = false) :
    Observed d.arity N fun k => withView (ins k) where
  conforms k hk := by
    unfold withView
    split
    · trivial
    · rename_i hne
      exact (h.shape k hk).resolve_left hne
  single hs := by
    refine (h.summed hsum).2 fun k hk => ?_
    have := hs k hk
    rw [isScalar_withView] at this
    exact of_decide_eq_true this

lemma Call.supported_summed (h : Call d variant ins N outLen) :
    Supported d fun k => withView (ins k) := by
  intro k hk j hj
  rw [size_withView] at hj
  rw [entry_withView, Desc.at_, Desc.slot]
  split
  · exact h.support k hk 0 (by omega)
  · exact h.support k hk j hj

lemma Call.supported_element (h : Call d variant ins N outLen) {n : ℕ} (hn : n < N) :
    Supported d fun k => View.scalar ((ins k).at_ n) := by
  intro k hk j _
  change d.support k ((ins k).at_ n)
  rw [Desc.at_, Desc.slot]
  split
  · exact h.support k hk 0 (by omega)
  · rename_i hne
    refine h.support k hk n ?_
    rwa [(h.shape k hk).resolve_left hne]

lemma observed_scalar (A : ℕ) (a : ℕ → ℝ) : Observed A 1 fun k => View.scalar (a k) :=
  ⟨fun _ _ => trivial, fun _ => rfl⟩

end Views

/-! ## Places of the results -/

section Places

variable {A : ℕ} {len : ℕ → ℕ}

lemma argOffset_succ (len : ℕ → ℕ) (k : ℕ) : argOffset len (k + 1) = argOffset len k + len k :=
  sum_range_succ ..

lemma argOffset_mono (len : ℕ → ℕ) {k l : ℕ} (h : k ≤ l) : argOffset len k ≤ argOffset len l :=
  sum_le_sum_of_subset (range_subset_range.2 h)

lemma argOffset_add_lt {k l j : ℕ} (hkl : k < l) (hj : j < len k) :
    argOffset len k + j < argOffset len l := by
  have hmono := argOffset_mono len (Nat.succ_le_of_lt hkl)
  rw [argOffset_succ] at hmono
  omega

lemma separate_summedOut (A : ℕ) (len : ℕ → ℕ) : (summedOut A len).Separate A where
  buf k _ k' _ hne j hj j' hj' := by
    change argOffset len k + j ≠ argOffset len k' + j'
    obtain hlt | hlt := Nat.lt_or_gt_of_ne hne
    · have hlt : argOffset len k + j < argOffset len k' := argOffset_add_lt hlt hj
      omega
    · have hlt : argOffset len k' + j' < argOffset len k := argOffset_add_lt hlt hj'
      omega
  connected k hk j hj := (argOffset_add_lt hk hj).ne

/-- Places of the elementwise scratch differ where the argument or the observation does. -/
lemma element_place_inj {k k' n n' : ℕ} (hn : n < N) (hn' : n' < N) (h : k * N + n = k' * N + n') :
    k = k' ∧ n = n' := by
  have hN : 0 < N := Nat.zero_lt_of_lt hn
  have hmod := congrArg (· % N) h
  have hdiv := congrArg (· / N) h
  simp only [Nat.mul_add_mod', Nat.mod_eq_of_lt hn, Nat.mod_eq_of_lt hn'] at hmod
  simp only [Nat.mul_comm k, Nat.mul_comm k', Nat.mul_add_div hN, Nat.div_eq_of_lt hn,
    Nat.div_eq_of_lt hn', Nat.add_zero] at hdiv
  exact ⟨hdiv, hmod⟩

lemma separate_elementOut {n : ℕ} (hn : n < N) : (elementOut A N n).Separate A where
  buf k _ k' _ hne j hj j' hj' := by
    obtain rfl : j = 0 := Nat.lt_one_iff.1 hj
    obtain rfl : j' = 0 := Nat.lt_one_iff.1 hj'
    exact fun h => hne (element_place_inj hn hn h).1
  connected k hk j hj := by
    obtain rfl : j = 0 := Nat.lt_one_iff.1 hj
    exact fun h => hk.ne (element_place_inj hn hn h).1

end Places

/-! ## Forward calls -/

section Forward

variable (F : Elementary ℝ) (lite : Bool)

/-- The sum over the observations. -/
theorem forward_summed (h : Call d variant ins N outLen) (hsum : variant.testBit 6 = false)
    (c : Cells ℝ) : ∃ c', d.forward F lite variant ins outLen c = .ok c' ∧
      SummedExact F d variant
        (d.dropped F (activityMask d.arity variant) (proptoBit lite variant)) ins N c' := by
  obtain ⟨c', hrun, hc⟩ := d.exact_run F (activityMask d.arity variant) (proptoBit lite variant)
    (h.observed_summed hsum) h.supported_summed (separate_summedOut d.arity fun k => (ins k).len)
    (fun k _ => (size_withView (ins k)).symm) c
  have hobs : ∀ n, observation (fun k => withView (ins k)) n = observed ins n :=
    fun n => funext fun k => entry_withView (ins k) n
  refine ⟨c', ?_, ?_, fun k hk hbit j hj => ?_, hc.connected⟩
  · rw [d.forward_eq, lpdfRun, if_neg (by simp [hsum])]
    exact hrun
  · refine hc.value.trans (sum_congr rfl fun n _ => ?_)
    rw [d.term_sub_dropped, hobs]
  · refine (hc.partials k hk hbit j (by rwa [size_withView])).trans ?_
    simp only [View.collect, slot_withView, hobs]

/-- What the elementwise form leaves for one observation. -/
structure ElementAt (F : Elementary ℝ) (d : FusedDensity) (variant : ℕ) (lite : Bool)
    (ins : ℕ → Desc ℝ) (N n : ℕ) (c' : Cells ℝ) : Prop where
  value : c'.out n =
    d.kept F (activityMask d.arity variant) (proptoBit lite variant) (observed ins n)
  partials : ∀ k < d.arity, (activityMask d.arity variant).testBit k = true →
    c'.scratch (k * N + n) = d.dTerm F k (observed ins n)
  connected : c'.scratch (d.arity * N + n) = if activityMask d.arity variant = 0 then 0 else 1

/-- One call of the elementwise form. -/
lemma element_call (h : Call d variant ins N outLen) {n : ℕ} (hn : n < N) (c : Cells ℝ) :
    ∃ c', d.op F (fun k => .scalar ((ins k).at_ n)) (activityMask d.arity variant)
        (proptoBit lite variant) (elementOut d.arity N n) c = .ok c' ∧
      ElementAt F d variant lite ins N n c' ∧ SameOutside d.arity (elementOut d.arity N n) c c' := by
  obtain ⟨c', hrun, hc⟩ := d.exact_run F (activityMask d.arity variant) (proptoBit lite variant)
    (observed_scalar d.arity fun k => (ins k).at_ n) (h.supported_element hn) (separate_elementOut hn)
    (fun _ _ => rfl) c
  refine ⟨c', hrun, ⟨?_, fun k hk hbit => ?_, ?_⟩, hc.same⟩
  · exact hc.value.trans (sum_range_one _)
  · exact (hc.partials k hk hbit 0 Nat.zero_lt_one).trans
      ((View.collect_scalar _ _).trans (sum_range_one _))
  · refine hc.connected.trans ?_
    simp

variable {F lite} in
/-- The results of another observation stay. -/
lemma ElementAt.frame {n m : ℕ} (h : ElementAt F d variant lite ins N n c) (hn : n < N) (hm : m < N)
    (hne : n ≠ m) (hsame : SameOutside d.arity (elementOut d.arity N m) c c') :
    ElementAt F d variant lite ins N n c' := by
  have hscratch : ∀ k, c'.scratch (k * N + n) = c.scratch (k * N + n) := by
    intro k
    refine hsame.scratch _ (fun heq => hne (element_place_inj hn hm heq).2) fun k' _ j hj => ?_
    obtain rfl : j = 0 := Nat.lt_one_iff.1 hj
    exact fun heq => hne (element_place_inj hn hm heq).2
  refine ⟨(hsame.out n hne).trans h.value, fun k hk hbit => ?_, ?_⟩
  · exact (hscratch k).trans (h.partials k hk hbit)
  · exact (hscratch _).trans h.connected

/-- The loop of the elementwise form, after the first `m` observations. -/
lemma element_loop (h : Call d variant ins N outLen) (m : ℕ) (hm : m ≤ N) (c : Cells ℝ) :
    ∃ c', (List.range m).foldlM (fun c n =>
        d.op F (fun k => .scalar ((ins k).at_ n)) (activityMask d.arity variant)
          (proptoBit lite variant) (elementOut d.arity N n) c) c = .ok c' ∧
      ∀ n < m, ElementAt F d variant lite ins N n c' := by
  induction m with
  | zero => exact ⟨c, rfl, fun n hn => absurd hn (Nat.not_lt_zero n)⟩
  | succ m ih =>
    obtain ⟨c₁, hrun₁, hc₁⟩ := ih (by omega)
    obtain ⟨c₂, hrun₂, hlast, hsame⟩ := element_call F lite h hm c₁
    refine ⟨c₂, ?_, fun n hn => ?_⟩
    · rw [List.range_succ, List.foldlM_append, bind_eq_ok_iff]
      refine ⟨c₁, hrun₁, ?_⟩
      rw [List.foldlM_cons, bind_eq_ok_iff]
      exact ⟨c₂, hrun₂, rfl⟩
    · obtain rfl | hlt := Nat.eq_or_lt_of_le (Nat.lt_succ_iff.1 hn)
      · exact hlast
      · exact (hc₁ n hlt).frame (by omega) hm (by omega) hsame

/-- Each observation of the elementwise form. -/
theorem forward_element (h : Call d variant ins N outLen) (helt : variant.testBit 6 = true)
    (c : Cells ℝ) : ∃ c', d.forward F lite variant ins outLen c = .ok c' ∧
      ElementExact F d variant
        (d.dropped F (activityMask d.arity variant) (proptoBit lite variant)) ins N c' := by
  obtain rfl := h.element helt
  have hmask : activityMask d.arity variant = variant &&& 0x3f := by
    rw [activityMask, if_neg]
    rintro rfl
    rw [Nat.zero_testBit] at helt
    cases helt
  obtain ⟨c', hrun, hc⟩ := element_loop F lite h outLen le_rfl c
  refine ⟨c', ?_, fun n hn => ?_, fun k hk hbit n hn => (hc n hn).partials k hk hbit,
    fun n hn => (hc n hn).connected⟩
  · rw [d.forward_eq, lpdfRun, if_pos helt, ← hmask]
    exact hrun
  · rw [d.term_sub_dropped]
    exact (hc n hn).value

end Forward

/-! ## Backward calls -/

section Backward

variable {U X : Type} {ctx : KernelCtx U} {st : RevState ℝ X} {F : Elementary ℝ}
  {dropped : (ℕ → ℝ) → ℝ}

/-- The context of a backward belongs to the call. -/
structure Runs (d : FusedDensity) (variant : ℕ) (ins : ℕ → Desc ℝ) (outLen : ℕ) (ctx : KernelCtx U) :
    Prop extends Bound d.arity ctx where
  variant_eq : ctx.variant = variant
  inLen : ∀ k < d.arity, ctx.inLen k = (ins k).len
  outLen_eq : ctx.out.2 = outLen

/-- The scratch of a backward holds what the forward left there. -/
def Retained (d : FusedDensity) (variant : ℕ) (ins : ℕ → Desc ℝ) (outLen : ℕ) (c' : Cells ℝ)
    (ctx : KernelCtx U) (st : RevState ℝ X) : Prop :=
  ∀ j < densityScratch d.arity variant (fun k => (ins k).len) outLen,
    st.mem (ctx.scratch.add j) = c'.scratch j

/-- The seeds times the partials of the active arguments that have an adjoint, as far as they belong to
a cell. -/
noncomputable def seeded (F : Elementary ℝ) (d : FusedDensity) (ins : ℕ → Desc ℝ) (N : ℕ) (ctx : KernelCtx U)
    (seed : ℕ → ℝ) (p : Ptr) : ℝ :=
  ∑ k ∈ range d.arity,
    if wanted d.arity ctx k then
      ∑ n ∈ range N,
        if (ctx.adj k).1.add ((ins k).slot n) = p then seed n * d.dTerm F k (observed ins n) else 0
    else 0

/-- Summing by entry and then by the observations that read it is summing over the observations. -/
lemma sum_by_entry (b : Desc ℝ) (hb : b.len = 1 ∨ b.len = N) (P : ℕ → Prop) [DecidablePred P] (s : ℝ)
    (w : ℕ → ℝ) :
    (∑ j ∈ range b.len, if P j then s * ∑ n ∈ range N with b.slot n = j, w n else 0) =
      ∑ n ∈ range N, if P (b.slot n) then s * w n else 0 := by
  have hmaps : ∀ n ∈ range N, b.slot n ∈ range b.len := by
    intro n hn
    have hn := mem_range.1 hn
    rw [mem_range, Desc.slot]
    split <;> omega
  rw [← sum_fiberwise_of_maps_to hmaps]
  refine sum_congr rfl fun j _ => ?_
  by_cases hP : P j
  · rw [if_pos hP, mul_sum]
    refine sum_congr rfl fun n hn => ?_
    rw [(mem_filter.1 hn).2, if_pos hP]
  · rw [if_neg hP]
    refine (sum_eq_zero fun n hn => ?_).symm
    rw [(mem_filter.1 hn).2, if_neg hP]

lemma seeded_eq_zero (hmask : N = 0 ∨ activityMask d.arity ctx.variant = 0) (seed : ℕ → ℝ) (p : Ptr) :
    seeded F d ins N ctx seed p = 0 := by
  refine sum_eq_zero fun k _ => ?_
  obtain rfl | hmask := hmask
  · rw [range_zero, sum_empty, ite_self]
  · rw [if_neg]
    rw [wanted, hmask, Nat.zero_testBit]
    simp

/-- The places of the scratch are those of the context. -/
lemma argOffset_inLen (hctx : Runs d variant ins outLen ctx) {k : ℕ} (hk : k ≤ d.arity) :
    argOffset ctx.inLen k = argOffset (fun k => (ins k).len) k :=
  sum_congr rfl fun i hi => hctx.inLen i (lt_of_lt_of_le (mem_range.1 hi) hk)

/-- What the summed form adds is the seed times the partials. -/
lemma summed_amounts (h : Call d variant ins N outLen) (hsum : variant.testBit 6 = false)
    (hc : SummedExact F d variant dropped ins N c') (hctx : Runs d variant ins outLen ctx)
    (hst : Retained d variant ins outLen c' ctx st) (s : ℝ) (p : Ptr) :
    (if st.mem (ctx.scratch.add (argOffset ctx.inLen d.arity)) = 0 then 0
      else ∑ k ∈ range d.arity, summedAmount d.arity ctx st s k p) =
      seeded F d ins N ctx (fun _ => s) p := by
  have hlen : densityScratch d.arity variant (fun k => (ins k).len) outLen =
      argOffset (fun k => (ins k).len) d.arity + 1 := by
    rw [densityScratch, if_neg (by simp [hsum])]
  rw [argOffset_inLen hctx le_rfl, hst _ (by omega), hc.connected]
  by_cases hmask : N = 0 ∨ activityMask d.arity variant = 0
  · rw [if_pos hmask, if_pos rfl, seeded_eq_zero (by rwa [hctx.variant_eq])]
  · rw [if_neg hmask, if_neg one_ne_zero]
    refine sum_congr rfl fun k hk => ?_
    have hk := mem_range.1 hk
    unfold summedAmount
    by_cases hw : wanted d.arity ctx k = true
    · have hbit : (activityMask d.arity variant).testBit k = true := by
        rw [← hctx.variant_eq]
        exact (Bool.and_eq_true _ _ ▸ hw).1
      rw [if_pos hw, if_pos hw, hctx.inLen k hk, argOffset_inLen hctx hk.le]
      refine Eq.trans (sum_congr rfl fun j hj => ?_) (sum_by_entry (ins k) (h.shape k hk)
        (fun j => (ctx.adj k).1.add j = p) s fun n => d.dTerm F k (observed ins n))
      have hj := mem_range.1 hj
      have hplace : argOffset (fun k => (ins k).len) k + j < argOffset (fun k => (ins k).len) d.arity :=
        argOffset_add_lt hk hj
      rw [hst _ (by omega), hc.partials k hk hbit j hj]
    · rw [if_neg hw, if_neg hw]

theorem backward_summed (h : Call d variant ins N outLen) (hsum : variant.testBit 6 = false)
    (hc : SummedExact F d variant dropped ins N c') (hctx : Runs d variant ins outLen ctx)
    (hst : Retained d variant ins outLen c' ctx st) (out2 p : Ptr) :
    (callBackward (densityBwd d.arity) ctx out2 st).mem p =
      st.mem p + seeded F d ins N ctx (fun _ => st.mem ctx.outAdj.1) p := by
  have hone : ctx.outAdj.2 = 1 := hctx.seedLen.trans (hctx.outLen_eq.trans (h.summed hsum).1)
  rw [callBackward, if_pos hone, densityBwd_summed hctx.toBound (by rwa [hctx.variant_eq]),
    summed_amounts h hsum hc hctx hst]

theorem micro_summed (h : Call d variant ins N outLen)
    (hc : SummedExact F d variant dropped ins N c') (hctx : Runs d variant ins outLen ctx)
    (hst : Retained d variant ins outLen c' ctx st) {K : ReverseKernels U ℝ X}
    (hK : ∀ v, K.isZero v = true ↔ v = 0) (hm : (densityMicro (V := ℝ) d.arity ctx).1 = true) (p : Ptr) :
    ((densityMicro d.arity ctx).2.foldl (fun st m => runBwdMicro K m st) st).mem p =
      st.mem p + seeded F d ins N ctx (fun _ => st.mem ctx.outAdj.1) p := by
  have hsum : variant.testBit 6 = false := hctx.variant_eq ▸ testBit_of_densityMicro hm
  rw [densityMicro_mem hctx.toBound hK hm, summed_amounts h hsum hc hctx hst]

theorem backward_element (h : Call d variant ins N outLen) (helt : variant.testBit 6 = true)
    (hc : ElementExact F d variant dropped ins N c') (hctx : Runs d variant ins outLen ctx)
    (hst : Retained d variant ins outLen c' ctx st) (out2 p : Ptr) :
    (callBackward (densityBwd d.arity) ctx out2 st).mem p =
      st.mem p + seeded F d ins N ctx (fun n => st.mem (ctx.outAdj.1.add n)) p := by
  have hout : ctx.out.2 = N := hctx.outLen_eq.trans (h.element helt)
  have hshape : Shaped d.arity ctx := fun k hk => by
    rw [hctx.inLen k hk, hout]
    exact h.shape k hk
  have hlen : densityScratch d.arity variant (fun k => (ins k).len) outLen = (d.arity + 1) * N := by
    rw [densityScratch, if_pos helt, h.element helt]
  have hplace : ∀ k ≤ d.arity, ∀ n < N, k * N + n <
      densityScratch d.arity variant (fun k => (ins k).len) outLen := by
    intro k hk n hn
    rw [hlen]
    calc k * N + n < k * N + N := by omega
      _ = (k + 1) * N := (Nat.succ_mul k N).symm
      _ ≤ (d.arity + 1) * N := Nat.mul_le_mul_right N (Nat.succ_le_succ hk)
  rw [callBackward, densityBwd_element hctx.toBound hshape (by rwa [hctx.variant_eq])]
  congr 1
  refine sum_congr rfl fun k hk => ?_
  have hk := mem_range.1 hk
  unfold elementAmount
  by_cases hw : wanted d.arity ctx k = true
  · have hbit : (activityMask d.arity variant).testBit k = true := by
      rw [← hctx.variant_eq]
      exact (Bool.and_eq_true _ _ ▸ hw).1
    have hmask : activityMask d.arity variant ≠ 0 := by
      intro hzero
      rw [hzero, Nat.zero_testBit] at hbit
      cases hbit
    have hslot : ∀ n, KernelCtx.slot ctx k n = (ins k).slot n := by
      intro n
      rw [KernelCtx.slot, hctx.inLen k hk, Desc.slot]
    rw [if_pos hw, if_pos hw, hout]
    refine sum_congr rfl fun n hn => ?_
    have hn := mem_range.1 hn
    rw [hst _ (hplace k hk.le n hn), hst _ (hplace d.arity le_rfl n hn), hc.connected n hn,
      if_neg hmask, if_pos one_ne_zero, hc.partials k hk hbit n hn, hslot]
  · rw [if_neg hw, if_neg hw]

end Backward

/-! ## The main theorem -/

/-- What the backward of a call adds, in its full and its micro form. -/
structure BackwardExact (U X : Type) (F : Elementary ℝ) (d : FusedDensity) (variant : ℕ)
    (ins : ℕ → Desc ℝ) (N outLen : ℕ) (c' : Cells ℝ) : Prop where
  summed : variant.testBit 6 = false → ∀ (ctx : KernelCtx U) (st : RevState ℝ X),
    Runs d variant ins outLen ctx → Retained d variant ins outLen c' ctx st → ∀ out2 p,
      (callBackward (densityBwd d.arity) ctx out2 st).mem p =
        st.mem p + seeded F d ins N ctx (fun _ => st.mem ctx.outAdj.1) p
  micro : ∀ (ctx : KernelCtx U) (st : RevState ℝ X) (K : ReverseKernels U ℝ X),
    (∀ v, K.isZero v = true ↔ v = 0) → (densityMicro (V := ℝ) d.arity ctx).1 = true →
      Runs d variant ins outLen ctx → Retained d variant ins outLen c' ctx st → ∀ p,
        variant.testBit 6 = false ∧
          ((densityMicro d.arity ctx).2.foldl (fun st m => runBwdMicro K m st) st).mem p =
            st.mem p + seeded F d ins N ctx (fun _ => st.mem ctx.outAdj.1) p
  element : variant.testBit 6 = true → ∀ (ctx : KernelCtx U) (st : RevState ℝ X),
    Runs d variant ins outLen ctx → Retained d variant ins outLen c' ctx st → ∀ out2 p,
      (callBackward (densityBwd d.arity) ctx out2 st).mem p =
        st.mem p + seeded F d ins N ctx (fun n => st.mem (ctx.outAdj.1.add n)) p

/-- Whatever is in the scratch, a call that is marked disconnected adds nothing, and neither does an
observation that is. -/
structure DisconnectedAdds (U X : Type) (nArgs : ℕ) : Prop where
  summed : ∀ (ctx : KernelCtx U) (st : RevState ℝ X), Bound nArgs ctx →
    ctx.variant.testBit 6 = false → st.mem (ctx.scratch.add (argOffset ctx.inLen nArgs)) = 0 →
      ∀ outAdj z p, (densityBwd nArgs ctx outAdj z st).mem p = st.mem p
  micro : ∀ (ctx : KernelCtx U) (st : RevState ℝ X) (K : ReverseKernels U ℝ X), Bound nArgs ctx →
    (∀ v, K.isZero v = true ↔ v = 0) → (densityMicro (V := ℝ) nArgs ctx).1 = true →
      st.mem (ctx.scratch.add (argOffset ctx.inLen nArgs)) = 0 → ∀ p,
        ((densityMicro nArgs ctx).2.foldl (fun st m => runBwdMicro K m st) st).mem p = st.mem p
  element : ∀ (ctx : KernelCtx U) (st : RevState ℝ X), Bound nArgs ctx → Shaped nArgs ctx →
    ctx.variant.testBit 6 = true → ∀ outAdj z p, (densityBwd nArgs ctx outAdj z st).mem p =
      st.mem p + ∑ k ∈ range nArgs, elementAmount nArgs ctx st k p

/-- A fused density, in one variant: what it leaves out, its derivatives, its results on arguments in
the support, and what its backward adds. -/
structure FusedDensity.Correct (U X : Type) (F : Elementary ℝ) (d : FusedDensity) (lite : Bool)
    (variant : ℕ) (dropped : (ℕ → ℝ) → ℝ) : Prop where
  inactive : ∀ a a', (∀ k < d.arity, (activityMask d.arity variant).testBit k = false → a k = a' k) →
    dropped a = dropped a'
  full : proptoBit lite variant = false → ∀ a, dropped a = 0
  derivative : ∀ k < d.arity, ∀ a, (∀ l < d.arity, d.support l (a l)) →
    HasDerivAt (fun x => d.term F (Function.update a k x)) (d.dTerm F k a) (a k)
  run : ∀ ins N outLen, Call d variant ins N outLen → ∀ c,
    ∃ c', d.forward F lite variant ins outLen c = .ok c' ∧
      (variant.testBit 6 = false → SummedExact F d variant dropped ins N c') ∧
      (variant.testBit 6 = true → ElementExact F d variant dropped ins N c') ∧
      BackwardExact U X F d variant ins N outLen c'
  disconnected : DisconnectedAdds U X d.arity

lemma disconnectedAdds (U X : Type) (nArgs : ℕ) : DisconnectedAdds U X nArgs where
  summed ctx st hB hsum hzero outAdj z p := by
    rw [densityBwd_summed hB hsum, if_pos hzero, add_zero]
  micro ctx st K hB hK hm hzero p := by
    rw [densityMicro_mem hB hK hm, if_pos hzero, add_zero]
  element ctx st hB hs helt outAdj z p := densityBwd_element hB hs helt outAdj z st p

/-- Every fused density is the sum of its observation terms, with their partials, in every variant. -/
theorem fusedDensity_correct (U X : Type) (F : Elementary ℝ) (hF : F.Lawful) (d : FusedDensity)
    (lite : Bool) (variant : ℕ) : d.Correct U X F lite variant
      (d.dropped F (activityMask d.arity variant) (proptoBit lite variant)) where
  inactive a a' h := d.dropped_congr F _ _ h
  full h a := by
    rw [h]
    exact d.dropped_full F _ a
  derivative k hk a ha := d.hasDerivAt_term hF ha hk
  run ins N outLen h c := by
    obtain helt | hsum := Bool.eq_false_or_eq_true (variant.testBit 6)
    · obtain ⟨c', hrun, hc⟩ := forward_element F lite h helt c
      have hno : variant.testBit 6 ≠ false := by rw [helt]; exact Bool.noConfusion
      refine ⟨c', hrun, fun hs => absurd hs hno, fun _ => hc, fun hs => absurd hs hno, ?_, ?_⟩
      · exact fun ctx st K hK hm hctx hst p =>
          absurd (hctx.variant_eq ▸ testBit_of_densityMicro hm) hno
      · exact fun _ ctx st hctx hst out2 p => backward_element h helt hc hctx hst out2 p
    · obtain ⟨c', hrun, hc⟩ := forward_summed F lite h hsum c
      have hno : variant.testBit 6 ≠ true := by rw [hsum]; exact Bool.noConfusion
      refine ⟨c', hrun, fun _ => hc, fun he => absurd he hno, ?_, ?_, fun he => absurd he hno⟩
      · exact fun _ ctx st hctx hst out2 p => backward_summed h hsum hc hctx hst out2 p
      · exact fun ctx st K hK hm hctx hst p => ⟨hsum, micro_summed h hc hctx hst hK hm p⟩
  disconnected := disconnectedAdds U X d.arity

/-- Two observations of a normal variable, with a shared location and a shared scale. -/
def twoObservations : ℕ → Desc ℝ
  | 0 => ⟨2, fun n => if n = 0 then 1 else 2⟩
  | 1 => ⟨1, fun _ => 0⟩
  | _ => ⟨1, fun _ => 1⟩

lemma twoObservations_call : Call .normal 0 twoObservations 2 1 where
  shape k hk := by
    change k < 3 at hk
    interval_cases k
    · exact Or.inr rfl
    · exact Or.inl rfl
    · exact Or.inl rfl
  support k hk j hj := by
    change k < 3 at hk
    interval_cases k
    · trivial
    · trivial
    · exact one_pos (α := ℝ)
  element h := by
    rw [Nat.zero_testBit] at h
    cases h
  summed _ := ⟨rfl, fun h => absurd (h 0 (by decide)) (by decide)⟩

/-- The location and the scale have adjoints, the variate is data. -/
def twoObservationsCtx : KernelCtx Unit where
  variant := 0
  idata := []
  udata := none
  ins := [(.data 0 0, 2), (.value 0, 1), (.value 1, 1)]
  out := (.value 2, 1)
  out2 := (.null, 0)
  scratch := .scratch 0
  inAdj := [(.null, 2), (.adjoint 0, 1), (.adjoint 1, 1)]
  outAdj := (.adjoint 2, 1)

lemma twoObservationsCtx_runs : Runs .normal 0 twoObservations 1 twoObservationsCtx where
  scratch := by rintro ⟨⟩
  seedLen := rfl
  adjLen k hk := by
    change k < 3 at hk
    interval_cases k <;> rfl
  scratchApart k hk hnull i j := by
    change k < 3 at hk
    interval_cases k
    · exact absurd rfl hnull
    · rintro ⟨⟩
    · rintro ⟨⟩
  seedApart k hk hnull i hi n hn := by
    change k < 3 at hk
    change n < 1 at hn
    interval_cases k
    · exact absurd rfl hnull
    · change i < 1 at hi
      intro h
      have := Ptr.adjoint.inj h
      omega
    · change i < 1 at hi
      intro h
      have := Ptr.adjoint.inj h
      omega
  variant_eq := rfl
  inLen k hk := by
    change k < 3 at hk
    interval_cases k <;> rfl
  outLen_eq := rfl

/-- A start of the backward: the scratch of the forward, and ones. -/
noncomputable def twoObservationsState (c' : Cells ℝ) : RevState ℝ Unit where
  mem
    | .scratch j => c'.scratch j
    | _ => 1
  log := []
  rest := ()

lemma seeded_twoObservations :
    seeded realElementary .normal twoObservations 2 twoObservationsCtx (fun _ => 1) (.adjoint 0) =
      1 + 2 := by
  have h0 : wanted 3 twoObservationsCtx 0 = false := by decide
  have h1 : wanted 3 twoObservationsCtx 1 = true := by decide
  have h2 : wanted 3 twoObservationsCtx 2 = true := by decide
  have hp0 : FusedDensity.normal.dTerm realElementary 1 (observed twoObservations 0) = 1 := by
    change ((1 : ℝ) - 0) / 1 ^ 2 = 1
    norm_num
  have hp1 : FusedDensity.normal.dTerm realElementary 1 (observed twoObservations 1) = 2 := by
    change ((2 : ℝ) - 0) / 1 ^ 2 = 2
    norm_num
  change ∑ k ∈ range 3, _ = _
  rw [sum_range_succ, sum_range_succ, sum_range_one]
  change (if wanted 3 twoObservationsCtx 0 then _ else (0 : ℝ)) +
    (if wanted 3 twoObservationsCtx 1 then _ else (0 : ℝ)) +
      (if wanted 3 twoObservationsCtx 2 then _ else (0 : ℝ)) = _
  rw [h0, h1, h2, if_neg Bool.false_ne_true, if_pos rfl, if_pos rfl, sum_range_succ, sum_range_one,
    sum_range_succ, sum_range_one, if_pos (by decide), if_pos (by decide), if_neg (by decide),
    if_neg (by decide), hp0, hp1]
  norm_num

/-- The adjoint of the shared location gets the partials of both observations. -/
theorem fusedDensity_correct_twoObservations :
    ∃ c', FusedDensity.normal.forward realElementary false 0 twoObservations 1 ⟨0, 0⟩ = .ok c' ∧
      c'.out 0 = normalTerm realElementary 1 0 1 + normalTerm realElementary 2 0 1 ∧
      (callBackward (densityBwd 3) twoObservationsCtx .null (twoObservationsState c')).mem
        (.adjoint 0) = 1 + (1 + 2) := by
  have hcorrect := fusedDensity_correct Unit Unit realElementary realElementary_lawful .normal false 0
  obtain ⟨c', hrun, hsum, -, hback⟩ := hcorrect.run twoObservations 2 1 twoObservations_call ⟨0, 0⟩
  refine ⟨c', hrun, ?_, ?_⟩
  · rw [(hsum (by decide)).value, sum_range_succ, sum_range_one, hcorrect.full (by decide),
      hcorrect.full (by decide), sub_zero, sub_zero]
    rfl
  · have hretained : Retained .normal 0 twoObservations 1 c' twoObservationsCtx
        (twoObservationsState c') := by
      intro j _
      change c'.scratch (0 + j) = c'.scratch j
      rw [Nat.zero_add]
    refine (hback.summed (by decide) twoObservationsCtx (twoObservationsState c')
      twoObservationsCtx_runs hretained .null (.adjoint 0)).trans ?_
    rw [← seeded_twoObservations]
    rfl

end Stanli.Densities
