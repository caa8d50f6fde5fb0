import Stanli.Collapse.Density

/-!
# The grouped kernel

What the loop of `normal_grouped_fwd` accumulates, as sums over the groups, and from there as sums over
the observations: the value is the log density the variant keeps, and the scratch holds its partials.
-/

namespace Stanli.Collapse

open Real

/-! ## The loop -/

section Loop

variable {α : Type*} [Field α] (log : α → α) (st : Statistics α) (mu sigma : Desc α)

/-- The second moment of a group around its location, from its statistics. -/
def groupQuadratic (g : ℕ) : α :=
  let r := st.centre g - mu.at_ g
  st.squares g + 2 * r * st.offset g + st.count g * r * r

/-- The accumulators after a number of groups. -/
theorem foldl_groupedStep (n : ℕ) :
    let acc := (List.range n).foldl (groupedStep log st mu sigma) ⟨0, 0, 0, fun _ => 0, fun _ => 0⟩
    acc.quadratic = ∑ g ∈ Finset.range n, groupQuadratic st mu g * (1 / sigma.at_ g) ^ 2 ∧
    acc.total = ∑ g ∈ Finset.range n, st.count g ∧
    (sigma.len ≠ 1 →
      acc.logScale = ∑ g ∈ Finset.range n, st.count g * log (sigma.at_ g)) ∧
    (∀ k, acc.dMu k = ∑ g ∈ Finset.range n, if mu.slot g = k then
      (st.count g * (st.centre g - mu.at_ g) + st.offset g) * (1 / sigma.at_ g) ^ 2 else 0) ∧
    ∀ k, acc.dSigma k = ∑ g ∈ Finset.range n, if sigma.slot g = k then
      groupQuadratic st mu g * (1 / sigma.at_ g) ^ 3 - st.count g * (1 / sigma.at_ g) else 0 := by
  induction n with
  | zero => simp
  | succ n ih =>
    obtain ⟨hquad, htotal, hlog, hmu, hsigma⟩ := ih
    rw [List.range_succ, List.foldl_append, List.foldl_cons, List.foldl_nil]
    refine ⟨?_, ?_, fun hlen => ?_, fun k => ?_, fun k => ?_⟩
    · rw [Finset.sum_range_succ, ← hquad, sq]
      rfl
    · rw [Finset.sum_range_succ, ← htotal]
      rfl
    · rw [Finset.sum_range_succ, ← hlog hlen]
      exact if_pos hlen
    · rw [Finset.sum_range_succ, ← hmu k, sq]
      exact update_add_apply ..
    · rw [Finset.sum_range_succ, ← hsigma k, pow_succ, sq, ← mul_assoc]
      exact update_add_apply ..

end Loop

/-! ## Sums over the observations -/

section Sums

variable {st : Statistics ℝ} {obs : List (Observation ℝ)}

theorem groupSum_normalTerm (h : st.Holds obs) {g : ℕ} (hg : g < st.groups) (logScale constant : Bool)
    (mu : Desc ℝ) (s : ℝ) :
    groupSum obs (fun y => normalTerm logScale constant y (mu.at_ g) s) g =
      -(1 / 2) * (groupQuadratic st mu g * (1 / s) ^ 2) -
        (if logScale then st.count g * log s else 0) +
        (if constant then st.count g * negLogSqrtTwoPi else 0) := by
  have hsplit : (fun y => normalTerm logScale constant y (mu.at_ g) s) = fun y =>
      -(1 / 2) * (1 / s) ^ 2 * (y - mu.at_ g) ^ 2 +
        (-(if logScale then log s else 0) + if constant then negLogSqrtTwoPi else 0) := by
    funext y
    rw [normalTerm]
    ring
  rw [hsplit, groupSum_add, groupSum_mul_left, groupSum_const, h.second_moment hg, ← h.count g hg,
    groupQuadratic]
  split_ifs <;> ring

theorem normalSum_eq (h : st.Holds obs) (hobs : ∀ o ∈ obs, o.2 < st.groups)
    (logScale constant : Bool) (mu sigma : Desc ℝ) :
    normalSum logScale constant obs mu sigma =
      -(1 / 2) * ∑ g ∈ Finset.range st.groups, groupQuadratic st mu g * (1 / sigma.at_ g) ^ 2 -
        (if logScale then ∑ g ∈ Finset.range st.groups, st.count g * log (sigma.at_ g) else 0) +
        (if constant then (∑ g ∈ Finset.range st.groups, st.count g) * negLogSqrtTwoPi else 0) := by
  rw [normalSum, ← sum_groupSum hobs fun g y =>
    normalTerm logScale constant y (mu.at_ g) (sigma.at_ g)]
  rw [Finset.sum_congr rfl fun g hg =>
    groupSum_normalTerm h (Finset.mem_range.1 hg) logScale constant mu (sigma.at_ g)]
  rw [Finset.sum_add_distrib, Finset.sum_sub_distrib, ← Finset.mul_sum]
  congr 1
  · congr 1
    split
    · rfl
    · exact Finset.sum_const_zero
  · split
    · rw [Finset.sum_mul]
    · exact Finset.sum_const_zero

/-- The partial by a location, from the statistics. -/
theorem sum_location_slope (h : st.Holds obs) (hobs : ∀ o ∈ obs, o.2 < st.groups)
    (mu sigma : Desc ℝ) (k : ℕ) :
    (obs.map fun o =>
        if mu.slot o.2 = k then (o.1 - mu.at_ o.2) / sigma.at_ o.2 ^ 2 else 0).sum =
      ∑ g ∈ Finset.range st.groups, if mu.slot g = k then
        (st.count g * (st.centre g - mu.at_ g) + st.offset g) * (1 / sigma.at_ g) ^ 2 else 0 := by
  rw [← sum_groupSum hobs fun g y =>
    if mu.slot g = k then (y - mu.at_ g) / sigma.at_ g ^ 2 else 0]
  apply Finset.sum_congr rfl
  intro g hg
  have hg := Finset.mem_range.1 hg
  by_cases hk : mu.slot g = k
  · simp only [if_pos hk]
    have hsplit : (fun y => (y - mu.at_ g) / sigma.at_ g ^ 2) = fun y =>
        (1 / sigma.at_ g) ^ 2 * (y - mu.at_ g) := by
      funext y
      ring
    rw [hsplit, groupSum_mul_left, h.first_moment hg, mul_comm]
  · simp only [if_neg hk]
    rw [groupSum_const, zero_mul]

/-- The partial by a scale, from the statistics. -/
theorem sum_scale_slope (h : st.Holds obs) (hobs : ∀ o ∈ obs, o.2 < st.groups)
    (mu sigma : Desc ℝ) (k : ℕ) :
    (obs.map fun o => if sigma.slot o.2 = k then
        (o.1 - mu.at_ o.2) ^ 2 / sigma.at_ o.2 ^ 3 - 1 / sigma.at_ o.2 else 0).sum =
      ∑ g ∈ Finset.range st.groups, if sigma.slot g = k then
        groupQuadratic st mu g * (1 / sigma.at_ g) ^ 3 - st.count g * (1 / sigma.at_ g) else 0 := by
  rw [← sum_groupSum hobs fun g y => if sigma.slot g = k then
    (y - mu.at_ g) ^ 2 / sigma.at_ g ^ 3 - 1 / sigma.at_ g else 0]
  apply Finset.sum_congr rfl
  intro g hg
  have hg := Finset.mem_range.1 hg
  by_cases hk : sigma.slot g = k
  · simp only [if_pos hk]
    have hsplit : (fun y => (y - mu.at_ g) ^ 2 / sigma.at_ g ^ 3 - 1 / sigma.at_ g) = fun y =>
        (1 / sigma.at_ g) ^ 3 * (y - mu.at_ g) ^ 2 + -(1 / sigma.at_ g) := by
      funext y
      ring
    rw [hsplit, groupSum_add, groupSum_mul_left, groupSum_const, h.second_moment hg,
      ← h.count g hg, groupQuadratic]
    ring
  · simp only [if_neg hk]
    rw [groupSum_const, zero_mul]

end Sums

/-! ## The kernel -/

theorem checkPositive_ok {function name : String} {arg : Desc ℝ}
    (h : ∀ k < arg.len, 0 < arg.data k) :
    checkPositive function name arg = .ok () := by
  rw [checkPositive, if_pos]
  rw [List.all_eq_true]
  intro k hk
  apply decide_eq_true
  apply h
  rw [List.mem_range] at hk
  split at hk <;> omega

/-- A shared value, or one per group, is there for every group. -/
theorem Desc.slot_lt {α : Type*} {d : Desc α} {groups g : ℕ} (hd : d.len = 1 ∨ d.len = groups)
    (hg : g < groups) : d.slot g < d.len := by
  rw [Desc.slot]
  split <;> omega

/-- `normal_grouped_fwd` on statistics that hold what they should. -/
theorem normalGroupedFwd_exact {statistics : List ℝ} {groups : ℕ} {obs : List (Observation ℝ)}
    (hlen : statistics.length = kGroupedStatColumns * groups)
    (h : (Statistics.ofList groups statistics).Holds obs) (hobs : ∀ o ∈ obs, o.2 < groups)
    (variant : UInt8) (mu : Desc ℝ) {sigma : Desc ℝ} (hsigma : sigma.len = 1 ∨ sigma.len = groups)
    (hpos : ∀ k < sigma.len, 0 < sigma.data k) (constant : ℝ) :
    ∃ kv, normalGroupedFwd log negLogSqrtTwoPi variant statistics mu sigma constant = .ok kv ∧
      kv.Exact (keepsLogScale variant)
        (fun keep mu sigma => normalSum keep (keepsConstant variant) obs mu sigma + constant)
        mu sigma := by
  have hgroups : statistics.length / kGroupedStatColumns = groups := by
    rw [hlen, kGroupedStatColumns]
    omega
  have hs : ∀ o ∈ obs, 0 < sigma.at_ o.2 := fun o ho => hpos _ (Desc.slot_lt hsigma (hobs o ho))
  obtain ⟨hquad, htotal, hlog, hmu, hdsigma⟩ :=
    foldl_groupedStep log (Statistics.ofList groups statistics) mu sigma groups
  rw [normalGroupedFwd, checkPositive_ok hpos, hgroups]
  refine ⟨_, rfl, ?_, fun k hk => ?_, fun k hk => ?_⟩
  · have hscale : (if sigma.len = 1 then
        (groupedSums log (Statistics.ofList groups statistics) mu sigma).total * log (sigma.data 0)
        else (groupedSums log (Statistics.ofList groups statistics) mu sigma).logScale) =
        ∑ g ∈ Finset.range groups,
          (Statistics.ofList groups statistics).count g * log (sigma.at_ g) := by
      split
      · rename_i hone
        have hat : ∀ g, sigma.at_ g = sigma.data 0 := fun g => congrArg sigma.data (if_pos hone)
        simp only [hat]
        rw [← Finset.sum_mul]
        exact congrArg (· * _) htotal
      · exact hlog ‹_›
    dsimp only
    rw [hscale, densityValue_eq, normalSum_eq h hobs]
    rw [show (groupedSums log (Statistics.ofList groups statistics) mu sigma).quadratic = _ from hquad,
      show (groupedSums log (Statistics.ofList groups statistics) mu sigma).total = _ from htotal]
    rfl
  · apply HasDerivAt.add_const
    rw [getD_column _ _ hk]
    have hd := hasDerivAt_normalSum_location (keepsLogScale variant) (keepsConstant variant) mu hs k
    rw [sum_location_slope h hobs] at hd
    exact hd.congr_deriv (hmu k).symm
  · apply HasDerivAt.add_const
    rw [getD_column_add]
    have hd := hasDerivAt_normalSum_scale (keepsConstant variant) mu hs k
    rw [sum_scale_slope h hobs] at hd
    have hcolumn := getD_column
      (groupedSums log (Statistics.ofList groups statistics) mu sigma).dSigma [] hk
    rw [List.append_nil] at hcolumn
    rw [hcolumn]
    exact hd.congr_deriv (hdsigma k).symm

end Stanli.Collapse
