import Stanli.Collapse.GroupedSound
import Stanli.Collapse.LinearData

/-!
# The closed forms are exact

The expansion of `linear_gaussian_fwd` around its centre is exact whatever the centre is, as long as the
triangular factor has the normal matrix of the weighted rows: the value is the log density of the
observations at their affine locations, and the scratch holds its partials.  With the sums of the grouped
form, `normal_grouped_fwd` and `linear_gaussian_fwd` leave the log density of the observations, and its
partials, for every centre of the statistics and every centre of the expansion.
-/

namespace Stanli.Collapse

open Real

section Expansion

variable {α : Type*} [Field α]

/-! ## The data, column by column -/

/-- One row of the least-squares matrix. -/
def normalRow (sqrt : α → α) (st : Statistics α) (rows : List (LinearRow α)) (g : ℕ) : ℕ → α :=
  weightedRow sqrt (st.count g) (rows.getD g ⟨0, []⟩)

theorem linearGaussianData_spec (sqrt : α → α) (solve : (ℕ → ℕ → α) → (ℕ → α) → ℕ → α)
    (qr : (ℕ → ℕ → α) → ℕ → ℕ → α) {p : ℕ} {rows : List (LinearRow α)} (hp : 1 ≤ p)
    (hrows : p ≤ rows.length) (statistics : List α) :
    let st := Statistics.ofList rows.length statistics
    ∃ (t linear : ℕ → α) (base total : α),
      linearGaussianData sqrt solve qr p rows statistics =
        base :: total :: ((List.range p).map t ++ ((List.range p).map linear ++
          packedTriangle p (qr (normalRow sqrt st rows)))) ∧
      base = ∑ g ∈ Finset.range rows.length, rowQuadratic st t (rows.getD g ⟨0, []⟩, g) ∧
      (∀ j, linear j =
        ∑ g ∈ Finset.range rows.length, rowLinear st t (rows.getD g ⟨0, []⟩, g) j) ∧
      total = ∑ g ∈ Finset.range rows.length, st.count g := by
  intro st
  have hshort : ¬(rows.length < p ∨ p < 1) := by omega
  rw [linearGaussianData, if_neg hshort]
  obtain ⟨hbase, hlinear, htotal⟩ := foldl_linearStep st
    (solve (normalRow sqrt st rows)
      fun g => sqrt (st.count g) * (st.centre g - (rows.getD g ⟨0, []⟩).constant))
    rows.zipIdx ({}, fun _ => {}, 0)
  simp only [Compensated.value_empty, zero_add, sum_zipIdx] at hbase hlinear htotal
  refine ⟨_, _, _, _, ?_, hbase, hlinear, htotal⟩
  simp only [List.append_assoc]
  rfl

/-! ## The expansion -/

theorem location_update (row : LinearRow α) (theta : ℕ → α) (k : ℕ) (x : α) :
    row.location (Function.update theta k x) =
      row.location theta + row.coefficient k * (x - theta k) := by
  obtain ⟨constant, terms⟩ := row
  simp only [LinearRow.location, LinearRow.coefficient]
  induction terms with
  | nil => simp
  | cons term terms ih =>
    simp only [List.map_cons, List.sum_cons, gather_cons]
    by_cases hk : term.1 = k
    · rw [if_pos hk, hk, Function.update_self]
      linear_combination ih
    · rw [if_neg hk, Function.update_of_ne hk]
      linear_combination ih

theorem at_locations {rows : List (LinearRow α)} (theta : Desc α) {g : ℕ} (hg : g < rows.length) :
    (locations rows theta).at_ g = (rows.getD g ⟨0, []⟩).location theta.data := by
  have hslot : (locations rows theta).slot g = g := by
    rw [Desc.slot]
    split
    · rename_i hone
      have hone : rows.length = 1 := hone
      omega
    · rfl
  rw [Desc.at_, hslot, locations]

variable {sqrt : α → α} {st : Statistics α} {rows : List (LinearRow α)} {p : ℕ} {t u : ℕ → α}
  {theta : Desc α} {r : ℕ → ℕ → α}

/-- What a step `u` from the centre changes in a group's location. -/
def rowShift (rows : List (LinearRow α)) (p : ℕ) (u : ℕ → α) (g : ℕ) : α :=
  ∑ j ∈ Finset.range p, (rows.getD g ⟨0, []⟩).coefficient j * u j

theorem centre_sub_location (hterms : ∀ row ∈ rows, ∀ term ∈ row.terms, term.1 < p)
    (hu : ∀ j < p, u j = theta.data j - t j) {g : ℕ} (hg : g < rows.length) :
    st.centre g - (locations rows theta).at_ g =
      rowResidual st t (rows.getD g ⟨0, []⟩, g) - rowShift rows p u g := by
  have hrow : ∀ term ∈ (rows.getD g ⟨0, []⟩).terms, term.1 < p := by
    rw [List.getD_eq_getElem _ _ hg]
    exact hterms _ (List.getElem_mem hg)
  have hshift : rowShift rows p u g =
      ∑ j ∈ Finset.range p, (rows.getD g ⟨0, []⟩).coefficient j * theta.data j -
        ∑ j ∈ Finset.range p, (rows.getD g ⟨0, []⟩).coefficient j * t j := by
    rw [rowShift, ← Finset.sum_sub_distrib]
    apply Finset.sum_congr rfl
    intro j hj
    rw [hu j (Finset.mem_range.1 hj), mul_sub]
  rw [at_locations theta hg, rowResidual, LinearRow.location_eq hrow, LinearRow.location_eq hrow,
    hshift]
  ring

theorem groupQuadratic_locations (hterms : ∀ row ∈ rows, ∀ term ∈ row.terms, term.1 < p)
    (hu : ∀ j < p, u j = theta.data j - t j) {g : ℕ} (hg : g < rows.length) :
    groupQuadratic st (locations rows theta) g =
      rowQuadratic st t (rows.getD g ⟨0, []⟩, g) -
        2 * (rowShift rows p u g *
          (st.count g * rowResidual st t (rows.getD g ⟨0, []⟩, g) + st.offset g)) +
        st.count g * rowShift rows p u g ^ 2 := by
  rw [groupQuadratic, centre_sub_location hterms hu hg, rowQuadratic]
  ring

/-- The rows' moments `b` take the step to its first-order effect. -/
theorem sum_rowShift (g : ℕ) :
    ∑ j ∈ Finset.range p, u j * rowLinear st t (rows.getD g ⟨0, []⟩, g) j =
      rowShift rows p u g *
        (st.count g * rowResidual st t (rows.getD g ⟨0, []⟩, g) + st.offset g) := by
  rw [rowShift, Finset.sum_mul]
  apply Finset.sum_congr rfl
  intro j _
  rw [rowLinear]
  ring

theorem sum_normalRow (g : ℕ) :
    ∑ j ∈ Finset.range p, normalRow sqrt st rows g j * u j =
      sqrt (st.count g) * rowShift rows p u g := by
  rw [rowShift, Finset.mul_sum]
  apply Finset.sum_congr rfl
  intro j _
  rw [normalRow, weightedRow_apply, mul_assoc]

/-- The triangular factor has the normal matrix of the weighted rows. -/
def IsFactor (p n : ℕ) (r a : ℕ → ℕ → α) : Prop :=
  ∀ j < p, ∀ k < p, ∑ i ∈ Finset.range p, upper r i j * upper r i k =
    ∑ g ∈ Finset.range n, a g j * a g k

theorem sum_sq_factor (hr : IsFactor p rows.length r (normalRow sqrt st rows))
    (hsqrt : ∀ g < rows.length, sqrt (st.count g) * sqrt (st.count g) = st.count g) :
    ∑ i ∈ Finset.range p, (∑ j ∈ Finset.range p, upper r i j * u j) ^ 2 =
      ∑ g ∈ Finset.range rows.length, st.count g * rowShift rows p u g ^ 2 := by
  calc ∑ i ∈ Finset.range p, (∑ j ∈ Finset.range p, upper r i j * u j) ^ 2
      = ∑ g ∈ Finset.range rows.length,
          (∑ j ∈ Finset.range p, normalRow sqrt st rows g j * u j) ^ 2 := by
        rw [sum_sq_mul, sum_sq_mul]
        refine Finset.sum_congr rfl fun j hj => Finset.sum_congr rfl fun k hk => ?_
        rw [hr j (Finset.mem_range.1 hj) k (Finset.mem_range.1 hk)]
    _ = _ := by
        apply Finset.sum_congr rfl
        intro g hg
        rw [sum_normalRow, mul_pow, sq (sqrt _), hsqrt g (Finset.mem_range.1 hg)]

theorem sum_mul_factor (hr : IsFactor p rows.length r (normalRow sqrt st rows))
    (hsqrt : ∀ g < rows.length, sqrt (st.count g) * sqrt (st.count g) = st.count g) {k : ℕ}
    (hk : k < p) :
    ∑ i ∈ Finset.range p, upper r i k * ∑ j ∈ Finset.range p, upper r i j * u j =
      ∑ g ∈ Finset.range rows.length,
        (rows.getD g ⟨0, []⟩).coefficient k * (st.count g * rowShift rows p u g) := by
  calc ∑ i ∈ Finset.range p, upper r i k * ∑ j ∈ Finset.range p, upper r i j * u j
      = ∑ g ∈ Finset.range rows.length, normalRow sqrt st rows g k *
          ∑ j ∈ Finset.range p, normalRow sqrt st rows g j * u j := by
        rw [sum_mul_mul, sum_mul_mul]
        refine Finset.sum_congr rfl fun j hj => ?_
        rw [hr j (Finset.mem_range.1 hj) k hk]
    _ = _ := by
        apply Finset.sum_congr rfl
        intro g hg
        have hroot := hsqrt g (Finset.mem_range.1 hg)
        rw [sum_normalRow, normalRow, weightedRow_apply]
        linear_combination (rows.getD g ⟨0, []⟩).coefficient k * rowShift rows p u g * hroot

/-- `K - 2 u.b + |R u|^2`, around any centre. -/
theorem quadratic_expansion (hterms : ∀ row ∈ rows, ∀ term ∈ row.terms, term.1 < p)
    (hu : ∀ j < p, u j = theta.data j - t j)
    (hr : IsFactor p rows.length r (normalRow sqrt st rows))
    (hsqrt : ∀ g < rows.length, sqrt (st.count g) * sqrt (st.count g) = st.count g) :
    ∑ g ∈ Finset.range rows.length, groupQuadratic st (locations rows theta) g =
      ∑ g ∈ Finset.range rows.length, rowQuadratic st t (rows.getD g ⟨0, []⟩, g) -
        2 * ∑ j ∈ Finset.range p, u j *
          ∑ g ∈ Finset.range rows.length, rowLinear st t (rows.getD g ⟨0, []⟩, g) j +
        ∑ i ∈ Finset.range p, (∑ j ∈ Finset.range p, upper r i j * u j) ^ 2 := by
  have hfirst : ∑ j ∈ Finset.range p, u j *
      ∑ g ∈ Finset.range rows.length, rowLinear st t (rows.getD g ⟨0, []⟩, g) j =
      ∑ g ∈ Finset.range rows.length, rowShift rows p u g *
        (st.count g * rowResidual st t (rows.getD g ⟨0, []⟩, g) + st.offset g) := by
    simp only [Finset.mul_sum]
    rw [Finset.sum_comm]
    exact Finset.sum_congr rfl fun g _ => sum_rowShift g
  rw [hfirst, sum_sq_factor hr hsqrt, Finset.mul_sum, ← Finset.sum_sub_distrib,
    ← Finset.sum_add_distrib]
  apply Finset.sum_congr rfl
  intro g hg
  exact groupQuadratic_locations hterms hu (Finset.mem_range.1 hg)

end Expansion

/-! ## The kernel -/

section Kernel

variable {rows : List (LinearRow ℝ)} {obs : List (Observation ℝ)}

theorem hasDerivAt_locations (rows : List (LinearRow ℝ)) (theta : Desc ℝ) (k : ℕ) {g : ℕ}
    (hg : g < rows.length) :
    HasDerivAt (fun x => (locations rows (theta.set k x)).at_ g)
      ((rows.getD g ⟨0, []⟩).coefficient k) (theta.data k) := by
  have hat : (fun x => (locations rows (theta.set k x)).at_ g) = fun x =>
      (rows.getD g ⟨0, []⟩).location theta.data +
        (rows.getD g ⟨0, []⟩).coefficient k * (x - theta.data k) := by
    funext x
    rw [at_locations _ hg]
    exact location_update ..
  rw [hat]
  have h := (((hasDerivAt_id (theta.data k)).sub_const (theta.data k)).const_mul
    ((rows.getD g ⟨0, []⟩).coefficient k)).const_add ((rows.getD g ⟨0, []⟩).location theta.data)
  exact h.congr_deriv (mul_one _)

theorem hasDerivAt_normalSum_locations (logScale constant : Bool) (theta : Desc ℝ) {sigma : Desc ℝ}
    (hobs : ∀ o ∈ obs, o.2 < rows.length) (hs : ∀ o ∈ obs, 0 < sigma.at_ o.2) (k : ℕ) :
    HasDerivAt (fun x => normalSum logScale constant obs (locations rows (theta.set k x)) sigma)
      (obs.map fun o => (o.1 - (locations rows theta).at_ o.2) / sigma.at_ o.2 ^ 2 *
        (rows.getD o.2 ⟨0, []⟩).coefficient k).sum (theta.data k) := by
  apply hasDerivAt_sum_map
  intro o ho
  have hset : theta.set k (theta.data k) = theta := by
    rw [Desc.set, Function.update_eq_self]
  have hterm := hasDerivAt_normalTerm_location logScale constant o.1
    ((locations rows (theta.set k (theta.data k))).at_ o.2) (hs o ho)
  have hcomp := hterm.comp (theta.data k) (hasDerivAt_locations rows theta k (hobs o ho))
  rw [hset] at hcomp
  exact hcomp

theorem sum_theta_slope {st : Statistics ℝ} (h : st.Holds obs) (hst : st.groups = rows.length)
    (hobs : ∀ o ∈ obs, o.2 < rows.length) (theta sigma : Desc ℝ) (hone : sigma.len = 1) (k : ℕ) :
    (obs.map fun o => (o.1 - (locations rows theta).at_ o.2) / sigma.at_ o.2 ^ 2 *
        (rows.getD o.2 ⟨0, []⟩).coefficient k).sum =
      (∑ g ∈ Finset.range rows.length, (rows.getD g ⟨0, []⟩).coefficient k *
        (st.count g * (st.centre g - (locations rows theta).at_ g) + st.offset g)) *
          (1 / sigma.data 0) ^ 2 := by
  have hat : ∀ g, sigma.at_ g = sigma.data 0 := fun g => congrArg sigma.data (if_pos hone)
  rw [← sum_groupSum hobs fun g y => (y - (locations rows theta).at_ g) / sigma.at_ g ^ 2 *
    (rows.getD g ⟨0, []⟩).coefficient k, Finset.sum_mul]
  apply Finset.sum_congr rfl
  intro g hg
  have hg : g < st.groups := by
    rw [hst]
    exact Finset.mem_range.1 hg
  have hsplit : (fun y => (y - (locations rows theta).at_ g) / sigma.at_ g ^ 2 *
      (rows.getD g ⟨0, []⟩).coefficient k) = fun y =>
        (rows.getD g ⟨0, []⟩).coefficient k * (1 / sigma.data 0) ^ 2 *
          (y - (locations rows theta).at_ g) := by
    funext y
    rw [hat]
    ring
  rw [hsplit, groupSum_mul_left, h.first_moment hg]
  ring

theorem groupCount_nonneg (obs : List (Observation ℝ)) (g : ℕ) : 0 ≤ groupCount obs g := by
  induction obs with
  | nil => exact le_rfl
  | cons o obs ih =>
    rw [groupCount, groupSum_cons]
    apply add_nonneg _ ih
    split
    · exact zero_le_one
    · exact le_rfl

/-- A running difference. -/
theorem foldl_sub_mul (u linear : ℕ → ℝ) (base : ℝ) (p : ℕ) :
    (List.range p).foldl (fun q j => q - 2 * u j * linear j) base =
      base - 2 * ∑ j ∈ Finset.range p, u j * linear j := by
  induction p with
  | zero => simp
  | succ p ih =>
    rw [List.range_succ, List.foldl_append, ih, List.foldl_cons, List.foldl_nil,
      Finset.sum_range_succ]
    ring

theorem getD_header (base total : ℝ) (rest : List ℝ) (i : ℕ) :
    (base :: total :: rest).getD (kLinearGaussianHeader + i) 0 = rest.getD i 0 := by
  rw [kLinearGaussianHeader, Nat.add_comm]
  rfl

/-- What the kernel makes of its data, with the step `u` and the moments `b` it reads. -/
theorem linearGaussianFwd_eq (variant : UInt8) {theta sigma : Desc ℝ} (hpos : 0 < sigma.data 0)
    (t linear : ℕ → ℝ) (base total : ℝ) (r : ℕ → ℕ → ℝ) (constant : ℝ) :
    ∃ u b : ℕ → ℝ, (∀ j < theta.len, u j = theta.data j - t j) ∧
      (∀ j < theta.len, b j = linear j) ∧
      let ru := fun i => ∑ j ∈ Finset.range theta.len, upper r i j * u j
      let q := base - 2 * ∑ j ∈ Finset.range theta.len, u j * b j +
        ∑ i ∈ Finset.range theta.len, ru i ^ 2
      ∃ kv, linearGaussianFwd log negLogSqrtTwoPi variant
          (base :: total :: ((List.range theta.len).map t ++ ((List.range theta.len).map linear ++
            packedTriangle theta.len r))) theta sigma constant = .ok kv ∧
        kv.value = densityValue negLogSqrtTwoPi variant (q * (1 / sigma.data 0) ^ 2)
          (total * log (sigma.data 0)) total constant ∧
        (∀ k < theta.len, kv.scratch.getD k 0 =
          (b k - ∑ i ∈ Finset.range theta.len, upper r i k * ru i) * (1 / sigma.data 0) ^ 2) ∧
        kv.scratch.getD theta.len 0 =
          q * (1 / sigma.data 0) ^ 3 - total * (1 / sigma.data 0) := by
  have hcheck : ∀ function name, checkPositive function name { sigma with len := 1 } = .ok () := by
    intro function name
    apply checkPositive_ok
    intro k hk
    have hk : k < 1 := hk
    rw [Nat.lt_one_iff.1 hk]
    exact hpos
  generalize hrest : (List.range theta.len).map t ++ ((List.range theta.len).map linear ++
    packedTriangle theta.len r) = rest
  have hcentre : ∀ j < theta.len, rest.getD j 0 = t j := by
    intro j hj
    rw [← hrest, getD_column _ _ hj]
  have hlinear : ∀ j < theta.len, rest.getD (theta.len + j) 0 = linear j := by
    intro j hj
    rw [← hrest, getD_column_add, getD_column _ _ hj]
  have htriangle : (base :: total :: rest).drop (kLinearGaussianHeader + theta.len + theta.len) =
      packedTriangle theta.len r := by
    rw [Nat.add_assoc, Nat.add_comm kLinearGaussianHeader, ← hrest, ← List.append_assoc]
    exact List.drop_left' (by simp)
  obtain ⟨u, hudef⟩ : ∃ u : ℕ → ℝ, u = fun j =>
      theta.data j - (base :: total :: rest).getD (kLinearGaussianHeader + j) 0 := ⟨_, rfl⟩
  obtain ⟨b, hbdef⟩ : ∃ b : ℕ → ℝ, b = fun j =>
      (base :: total :: rest).getD (kLinearGaussianHeader + theta.len + j) 0 := ⟨_, rfl⟩
  have hu : ∀ j < theta.len, u j = theta.data j - t j := by
    intro j hj
    rw [hudef, ← hcentre j hj, ← getD_header base total rest j]
  have hb : ∀ j < theta.len, b j = linear j := by
    intro j hj
    rw [hbdef, ← hlinear j hj, ← getD_header base total rest, ← Nat.add_assoc]
  refine ⟨u, b, hu, hb, ?_⟩
  intro ru q
  obtain ⟨-, hq, hd⟩ := foldl_triangleStep theta.len u r
    (base - 2 * ∑ j ∈ Finset.range theta.len, u j * b j) (le_refl theta.len)
  have hfirst : (List.range theta.len).foldl (fun q j => q - 2 * u j * b j) base =
      base - 2 * ∑ j ∈ Finset.range theta.len, u j * b j := foldl_sub_mul u b base theta.len
  rw [← hfirst] at hq hd
  subst hudef hbdef
  rw [linearGaussianFwd, hcheck]
  dsimp only
  rw [htriangle]
  generalize hacc : (List.range theta.len).foldl (@triangleStep ℝ _ theta.len _) _ = acc
  have hq : acc.2.1 = q := by
    rw [← hacc]
    exact hq.trans (by rw [hfirst])
  have hd : ∀ j < theta.len, acc.2.2 j = ∑ i ∈ Finset.range theta.len, upper r i j * ru i := by
    rw [← hacc]
    exact hd
  refine ⟨_, rfl, ?_, fun k hk => ?_, ?_⟩
  · dsimp only
    rw [hq, sq]
    rfl
  · dsimp only
    rw [getD_column _ _ hk, hd k hk, sq]
  · have hcolumn := getD_column_add
      (fun j => ((base :: total :: rest).getD (kLinearGaussianHeader + theta.len + j) 0 - acc.2.2 j) *
        (1 / sigma.data 0 * (1 / sigma.data 0)))
      [acc.2.1 * (1 / sigma.data 0 * (1 / sigma.data 0)) * (1 / sigma.data 0) -
        total * (1 / sigma.data 0)] theta.len 0
    apply hcolumn.trans
    rw [hq, List.getD_cons_zero]
    ring

/-- `linear_gaussian_fwd` on data that `linear_gaussian_data` made of such statistics. -/
theorem linearGaussianFwd_exact (solve : (ℕ → ℕ → ℝ) → (ℕ → ℝ) → ℕ → ℝ)
    {qr : (ℕ → ℕ → ℝ) → ℕ → ℕ → ℝ} {statistics : List ℝ}
    (h : (Statistics.ofList rows.length statistics).Holds obs)
    (hobs : ∀ o ∈ obs, o.2 < rows.length) (variant : UInt8) {theta sigma : Desc ℝ}
    (hp : 1 ≤ theta.len) (hrows : theta.len ≤ rows.length)
    (hterms : ∀ row ∈ rows, ∀ term ∈ row.terms, term.1 < theta.len) (hone : sigma.len = 1)
    (hpos : 0 < sigma.data 0)
    (hr : IsFactor theta.len rows.length
      (qr (normalRow sqrt (Statistics.ofList rows.length statistics) rows))
      (normalRow sqrt (Statistics.ofList rows.length statistics) rows)) (constant : ℝ) :
    ∃ kv, linearGaussianFwd log negLogSqrtTwoPi variant
        (linearGaussianData sqrt solve qr theta.len rows statistics) theta sigma constant = .ok kv ∧
      kv.Exact (keepsLogScale variant)
        (fun keep theta sigma =>
          normalSum keep (keepsConstant variant) obs (locations rows theta) sigma + constant)
        theta sigma := by
  set st := Statistics.ofList rows.length statistics with hst
  have hgroups : st.groups = rows.length := rfl
  have hobs' : ∀ o ∈ obs, o.2 < st.groups := hobs
  have hsqrt : ∀ g < rows.length, √(st.count g) * √(st.count g) = st.count g := by
    intro g hg
    apply Real.mul_self_sqrt
    rw [h.count g hg]
    exact groupCount_nonneg obs g
  have hat : ∀ g, sigma.at_ g = sigma.data 0 := fun g => congrArg sigma.data (if_pos hone)
  have hs : ∀ o ∈ obs, 0 < sigma.at_ o.2 := fun o _ => by rwa [hat]
  obtain ⟨t, linear, base, total, hdata, hbase, hlinear, htotal⟩ :=
    linearGaussianData_spec sqrt solve qr hp hrows statistics
  obtain ⟨u, b, hu, hb, kv, hkv, hvalue, hdtheta, hdsigma⟩ :=
    @linearGaussianFwd_eq variant theta _ hpos t linear base total
      (qr (normalRow sqrt st rows)) constant
  have hq : base - 2 * ∑ j ∈ Finset.range theta.len, u j * b j +
      ∑ i ∈ Finset.range theta.len,
        (∑ j ∈ Finset.range theta.len, upper (qr (normalRow sqrt st rows)) i j * u j) ^ 2 =
      ∑ g ∈ Finset.range rows.length, groupQuadratic st (locations rows theta) g := by
    have hmoments : ∑ j ∈ Finset.range theta.len, u j * b j = ∑ j ∈ Finset.range theta.len, u j *
        ∑ g ∈ Finset.range rows.length, rowLinear st t (rows.getD g ⟨0, []⟩, g) j := by
      apply Finset.sum_congr rfl
      intro j hj
      rw [hb j (Finset.mem_range.1 hj), hlinear j]
    rw [quadratic_expansion hterms hu hr hsqrt, hbase, hmoments]
  refine ⟨kv, by rw [hdata, hkv], ?_, fun k hk => ?_, fun k hk => ?_⟩
  · rw [hvalue, densityValue_eq, normalSum_eq h hobs', hq, htotal]
    simp only [hat, Finset.sum_mul]
    rfl
  · apply HasDerivAt.add_const
    have hd := hasDerivAt_normalSum_locations (keepsLogScale variant) (keepsConstant variant) theta
      hobs hs k
    rw [sum_theta_slope h hgroups hobs theta sigma hone] at hd
    apply hd.congr_deriv
    rw [hdtheta k hk, hb k hk, hlinear k, sum_mul_factor hr hsqrt hk, ← Finset.sum_sub_distrib]
    congr 1
    apply Finset.sum_congr rfl
    intro g hg
    rw [centre_sub_location hterms hu (Finset.mem_range.1 hg), rowLinear]
    ring
  · have hk : k = 0 := by omega
    rw [hk]
    apply HasDerivAt.add_const
    have hd := hasDerivAt_normalSum_scale (keepsConstant variant) (locations rows theta) hs 0
    rw [sum_scale_slope h hobs'] at hd
    apply hd.congr_deriv
    rw [Nat.add_zero, hdsigma, hq, htotal, Finset.sum_mul, Finset.sum_mul, ← Finset.sum_sub_distrib]
    apply Finset.sum_congr rfl
    intro g _
    rw [if_pos (show sigma.slot g = 0 from if_pos hone), hat]

end Kernel

noncomputable section

/-! ## A collapsed term -/

/-- What a term of this variant passes on for its variate. -/
def termVariate (variant : UInt8) (y : List ℝ) : List ℝ × ℝ :=
  collapsedVariate log (hasBit variant kGroupedLognormal) y

/-- Its statistics around a centre. -/
def termStatistics (variant : UInt8) (centre : ℕ → ℝ) (y : List ℝ) (groupOf : List ℕ) (groups : ℕ) :
    List ℝ :=
  groupedStatisticsAt centre ((termVariate variant y).1.zip groupOf) groups

/-- The log density of the term's observations, with or without its log-scale terms. -/
def termDensity (variant : UInt8) (y : List ℝ) (groupOf : List ℕ) (keep : Bool)
    (mu sigma : Desc ℝ) : ℝ :=
  densitySum (hasBit variant kGroupedLognormal) keep (keepsConstant variant) (y.zip groupOf) mu sigma

theorem termDensity_eq (variant : UInt8) {y : List ℝ} {groupOf : List ℕ}
    (hlen : y.length = groupOf.length) :
    termDensity variant y groupOf = fun keep mu sigma =>
      normalSum keep (keepsConstant variant) ((termVariate variant y).1.zip groupOf) mu sigma +
        (termVariate variant y).2 := by
  funext keep mu sigma
  exact densitySum_eq _ keep (keepsConstant variant) hlen mu sigma

/-- The least-squares matrix of the term's affine locations. -/
def termRows (variant : UInt8) (centre : ℕ → ℝ) (y : List ℝ) (groupOf : List ℕ)
    (rows : List (LinearRow ℝ)) : ℕ → ℕ → ℝ :=
  normalRow sqrt (Statistics.ofList rows.length
    (termStatistics variant centre y groupOf rows.length)) rows

/-- The closed forms of a normal or lognormal term.  The value keeps the log-scale terms as the variant
says; the partials by the scale are of the density with those terms. -/
theorem closedForms_exact {y : List ℝ} {groupOf : List ℕ} {groups : ℕ}
    (hlen : y.length = groupOf.length) (hgroups : ∀ g ∈ groupOf, g < groups) (variant : UInt8)
    (centre : ℕ → ℝ) :
    (∀ mu sigma : Desc ℝ, mu.len = 1 ∨ mu.len = groups → sigma.len = 1 ∨ sigma.len = groups →
      (∀ k < sigma.len, 0 < sigma.data k) →
      ∃ kv, normalGroupedFwd log negLogSqrtTwoPi variant
          (termStatistics variant centre y groupOf groups) mu sigma (termVariate variant y).2 =
            .ok kv ∧
        kv.Exact (keepsLogScale variant) (termDensity variant y groupOf) mu sigma) ∧
    ∀ (rows : List (LinearRow ℝ)) (theta sigma : Desc ℝ)
      (solve : (ℕ → ℕ → ℝ) → (ℕ → ℝ) → ℕ → ℝ) (qr : (ℕ → ℕ → ℝ) → ℕ → ℕ → ℝ),
      rows.length = groups → 1 ≤ theta.len → theta.len ≤ groups →
      (∀ row ∈ rows, ∀ term ∈ row.terms, term.1 < theta.len) → sigma.len = 1 → 0 < sigma.data 0 →
      IsFactor theta.len groups (qr (termRows variant centre y groupOf rows))
        (termRows variant centre y groupOf rows) →
      ∃ kv, linearGaussianFwd log negLogSqrtTwoPi variant
          (linearGaussianData sqrt solve qr theta.len rows
            (termStatistics variant centre y groupOf groups)) theta sigma (termVariate variant y).2 =
              .ok kv ∧
        kv.Exact (keepsLogScale variant)
          (fun keep theta sigma =>
            termDensity variant y groupOf keep (locations rows theta) sigma) theta sigma := by
  have hobs : ∀ o ∈ (termVariate variant y).1.zip groupOf, o.2 < groups := fun o ho =>
    hgroups _ (List.of_mem_zip ho).2
  have hholds := ofList_groupedStatisticsAt_holds centre ((termVariate variant y).1.zip groupOf) groups
  rw [termDensity_eq variant hlen]
  refine ⟨?_, ?_⟩
  · intro mu sigma _ hsigma hpos
    exact normalGroupedFwd_exact (length_groupedStatisticsAt ..) hholds hobs variant mu hsigma hpos _
  · intro rows theta sigma solve qr hrows hp hle hterms hone hpos hr
    subst hrows
    exact linearGaussianFwd_exact solve hholds hobs variant hp hle hterms hone hpos hr _

/-- Two groups with their locations in one parameter. -/
def twoRows : List (LinearRow ℝ) := [⟨0, [(0, 1)]⟩, ⟨1, [(0, 2)]⟩]

/-- The triangular factor of a matrix of two rows and one column. -/
def columnNorm (a : ℕ → ℕ → ℝ) (_ _ : ℕ) : ℝ := √(a 0 0 * a 0 0 + a 1 0 * a 1 0)

theorem isFactor_columnNorm (a : ℕ → ℕ → ℝ) : IsFactor 1 2 (columnNorm a) a := by
  intro j hj k hk
  have hj : j = 0 := by omega
  have hk : k = 0 := by omega
  subst hj hk
  rw [Finset.sum_range_one, Finset.sum_range_succ, Finset.sum_range_one]
  apply Real.mul_self_sqrt
  exact add_nonneg (mul_self_nonneg _) (mul_self_nonneg _)

theorem closedForms_exact_twoRows :
    (∃ kv, normalGroupedFwd log negLogSqrtTwoPi 3 (termStatistics 3 (fun _ => 1) [1, 2, 4] [0, 0, 1] 2)
        ⟨2, fun k => k⟩ ⟨1, fun _ => 2⟩ (termVariate 3 [1, 2, 4]).2 = .ok kv ∧
      kv.Exact (keepsLogScale 3) (termDensity 3 [1, 2, 4] [0, 0, 1]) ⟨2, fun k => k⟩
        ⟨1, fun _ => 2⟩) ∧
    ∃ kv, linearGaussianFwd log negLogSqrtTwoPi 3
        (linearGaussianData sqrt (fun _ _ _ => 1) columnNorm 1 twoRows
          (termStatistics 3 (fun _ => 1) [1, 2, 4] [0, 0, 1] 2))
        ⟨1, fun _ => 3⟩ ⟨1, fun _ => 2⟩ (termVariate 3 [1, 2, 4]).2 = .ok kv ∧
      kv.Exact (keepsLogScale 3)
        (fun keep theta sigma =>
          termDensity 3 [1, 2, 4] [0, 0, 1] keep (locations twoRows theta) sigma)
        ⟨1, fun _ => 3⟩ ⟨1, fun _ => 2⟩ := by
  have h := @closedForms_exact [1, 2, 4] [0, 0, 1] 2 rfl (by decide) 3 (fun _ => 1)
  refine ⟨h.1 _ _ (.inr rfl) (.inl rfl) fun _ _ => two_pos, ?_⟩
  apply h.2 twoRows ⟨1, fun _ => 3⟩ ⟨1, fun _ => 2⟩ _ columnNorm rfl le_rfl one_le_two _ rfl two_pos
    (isFactor_columnNorm _)
  simp [twoRows]

/-- The variant of a propto term whose location is a parameter and whose scale is data. -/
def dataScalePropto : UInt8 := kGroupedLocationActive ||| kGroupedPropto

/-- One observation at its location, under propto: the value has no log-scale term. -/
theorem normalSum_self (s : ℝ) :
    normalSum (keepsLogScale dataScalePropto) (keepsConstant dataScalePropto) [(0, 0)]
      ⟨1, fun _ => 0⟩ ⟨1, fun _ => s⟩ = 0 := by
  have hscale : keepsLogScale dataScalePropto = false := by decide
  have hconstant : keepsConstant dataScalePropto = false := by decide
  simp [normalSum, normalTerm, Desc.at_, hscale, hconstant]

/-- Under propto a scale that is not active leaves the value without its log-scale terms, and the
scratch with their partial: no function of the scale has both. -/
theorem normalGroupedFwd_propto_scale :
    ∃ kv, normalGroupedFwd log negLogSqrtTwoPi dataScalePropto
        (termStatistics dataScalePropto (fun _ => 0) [0] [0] 1) ⟨1, fun _ => 0⟩ ⟨1, fun _ => 1⟩
        (termVariate dataScalePropto [0]).2 = .ok kv ∧
      ¬∃ density : ℝ → ℝ, HasDerivAt density (kv.scratch.getD 1 0) 1 ∧
        ∀ s, 0 < s → ∃ kv', normalGroupedFwd log negLogSqrtTwoPi dataScalePropto
          (termStatistics dataScalePropto (fun _ => 0) [0] [0] 1) ⟨1, fun _ => 0⟩ ⟨1, fun _ => s⟩
          (termVariate dataScalePropto [0]).2 = .ok kv' ∧ kv'.value = density s := by
  have hobs : ∀ o ∈ (termVariate dataScalePropto [0]).1.zip [0], o.2 < 1 := by
    intro o ho
    rw [List.mem_singleton.1 (List.of_mem_zip ho).2]
    exact Nat.one_pos
  have hexact := fun (s : ℝ) (hs : 0 < s) => @normalGroupedFwd_exact _ _ _
    (length_groupedStatisticsAt ..)
    (ofList_groupedStatisticsAt_holds (fun _ => 0) ((termVariate dataScalePropto [0]).1.zip [0]) 1)
    hobs dataScalePropto ⟨1, fun _ => 0⟩ ⟨1, fun _ => s⟩ (.inl rfl) (fun _ _ => hs)
    (termVariate dataScalePropto [0]).2
  have hzip : (termVariate dataScalePropto [0]).1.zip [0] = [((0 : ℝ), 0)] := by
    have hnormal : hasBit dataScalePropto kGroupedLognormal = false := by decide
    rw [termVariate, hnormal]
    rfl
  obtain ⟨kv, hkv, hvalue, -, hscale⟩ := hexact 1 one_pos
  refine ⟨kv, hkv, ?_⟩
  rintro ⟨density, hdensity, heq⟩
  have hscratch : kv.scratch.getD 1 0 = -1 := by
    have h := hscale 0 Nat.one_pos
    rw [hzip] at h
    have hd := (@hasDerivAt_normalSum_scale (keepsConstant dataScalePropto) [((0 : ℝ), 0)]
      ⟨1, fun _ => 0⟩ ⟨1, fun _ => 1⟩ (fun _ _ => one_pos) 0).add_const
        (termVariate dataScalePropto [0]).2
    rw [h.unique hd]
    simp [Desc.at_, Desc.slot]
  have hconst : ∀ s, 0 < s → density s = (termVariate dataScalePropto [0]).2 := by
    intro s hs
    obtain ⟨kv', hkv', hvalue'⟩ := heq s hs
    obtain ⟨kv'', hkv'', hexact'', -, -⟩ := hexact s hs
    have hsame : kv' = kv'' := Except.ok.inj (hkv'.symm.trans hkv'')
    rw [← hvalue', hsame, hexact'', hzip, normalSum_self, zero_add]
  have hzero : HasDerivAt density 0 1 := by
    apply (hasDerivAt_const (1 : ℝ) (termVariate dataScalePropto [0]).2).congr_of_eventuallyEq
    filter_upwards [lt_mem_nhds one_pos] with s hs
    exact hconst s hs
  have hcontra := hzero.unique hdensity
  rw [hscratch] at hcontra
  norm_num at hcontra

end

end Stanli.Collapse
