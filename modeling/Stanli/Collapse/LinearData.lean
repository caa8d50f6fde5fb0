import Mathlib.Algebra.BigOperators.Group.Finset.Sigma
import Mathlib.Algebra.BigOperators.Ring.Finset
import Mathlib.Order.Interval.Finset.Nat
import Stanli.Collapse.Statistics

/-!
# What the data of a linear form holds

Over a field `linear_gaussian_data` leaves the second moment of the observations around the locations at
the centre, their number, and the moments `b` of what is left there with the rows; behind them stands the
triangular factor row by row.  The kernel's pass over the packed rows forms `|R u|^2` and `R' (R u)`.
-/

namespace Stanli.Collapse

variable {α : Type*} [Field α]

/-! ## Affine locations -/

namespace LinearRow

/-- The location of the row's group. -/
def location (row : LinearRow α) (theta : ℕ → α) : α :=
  row.constant + (row.terms.map fun term => term.2 * theta term.1).sum

/-- All a row takes of one parameter. -/
def coefficient (row : LinearRow α) (j : ℕ) : α := gather row.terms j

theorem gather_mul (terms : List (ℕ × α)) (f : ℕ → α) (j : ℕ) :
    gather (terms.map fun term => (term.1, term.2 * f term.1)) j = gather terms j * f j := by
  induction terms with
  | nil => simp
  | cons term terms ih =>
    rw [List.map_cons, gather_cons, gather_cons, ih, add_mul]
    congr 1
    by_cases hj : term.1 = j
    · rw [if_pos hj, if_pos hj, hj]
    · rw [if_neg hj, if_neg hj, zero_mul]

theorem location_eq {row : LinearRow α} {p : ℕ} (h : ∀ term ∈ row.terms, term.1 < p) (theta : ℕ → α) :
    row.location theta = row.constant + ∑ j ∈ Finset.range p, row.coefficient j * theta j := by
  unfold location coefficient
  rw [Finset.sum_congr rfl fun j _ => (gather_mul row.terms theta j).symm, sum_gather, List.map_map]
  · rfl
  · intro e he
    obtain ⟨term, hterm, rfl⟩ := List.mem_map.1 he
    exact h term hterm

end LinearRow

/-- The locations of all groups. -/
def locations (rows : List (LinearRow α)) (theta : Desc α) : Desc α :=
  ⟨rows.length, fun g => (rows.getD g ⟨0, []⟩).location theta.data⟩

theorem weightedRow_apply (sqrt : α → α) (count : α) (row : LinearRow α) (j : ℕ) :
    weightedRow sqrt count row j = sqrt count * row.coefficient j := by
  have h := view_foldl_update (id : α → α) (k := Prod.fst)
    (f := fun a (term : ℕ × α) => a + sqrt count * term.2) (w := fun term => sqrt count * term.2)
    (fun _ _ => rfl) row.terms (fun _ => 0) j
  have hconst := LinearRow.gather_mul row.terms (fun _ => sqrt count) j
  simp only [mul_comm _ (sqrt count)] at hconst
  rw [LinearRow.coefficient, ← hconst]
  exact h.trans (zero_add _)

/-! ## The loop over the rows -/

section Rows

variable (st : Statistics α) (t : ℕ → α)

/-- What is left of a group's centre at the centre of the parameters. -/
def rowResidual (entry : LinearRow α × ℕ) : α := st.centre entry.2 - entry.1.location t

theorem residual_value (entry : LinearRow α × ℕ) :
    (entry.1.terms.foldl (fun c term => c.addProduct (-term.2) (t term.1))
      ((({} : Compensated α).add (st.centre entry.2)).add (-entry.1.constant))).value =
      rowResidual st t entry := by
  have hfold : ∀ (terms : List (ℕ × α)) (c : Compensated α),
      (terms.foldl (fun c term => c.addProduct (-term.2) (t term.1)) c).value =
        c.value - (terms.map fun term => term.2 * t term.1).sum := by
    intro terms
    induction terms with
    | nil => simp
    | cons term terms ih =>
      intro c
      rw [List.foldl_cons, ih, Compensated.value_addProduct, List.map_cons, List.sum_cons]
      ring
  rw [hfold, Compensated.value_add, Compensated.value_add, Compensated.value_empty, rowResidual,
    LinearRow.location]
  ring

/-- The second moment of a group around the location its row has at the centre. -/
def rowQuadratic (entry : LinearRow α × ℕ) : α :=
  st.squares entry.2 + st.count entry.2 * rowResidual st t entry * rowResidual st t entry +
    2 * st.offset entry.2 * rowResidual st t entry

/-- What a group has left to do with one parameter. -/
def rowLinear (entry : LinearRow α × ℕ) (j : ℕ) : α :=
  entry.1.coefficient j * (st.count entry.2 * rowResidual st t entry + st.offset entry.2)

/-- One row. -/
theorem linearStep_spec (acc : Compensated α × (ℕ → Compensated α) × α) (entry : LinearRow α × ℕ) :
    (linearStep st t acc entry).1.value = acc.1.value + rowQuadratic st t entry ∧
    (∀ j, ((linearStep st t acc entry).2.1 j).value = (acc.2.1 j).value + rowLinear st t entry j) ∧
    (linearStep st t acc entry).2.2 = acc.2.2 + st.count entry.2 := by
  have hres := residual_value st t entry
  refine ⟨?_, fun j => ?_, rfl⟩
  · simp only [linearStep, Compensated.value_addProduct, Compensated.value_add]
    rw [hres, rowQuadratic]
    ring
  · have h := view_foldl_update Compensated.value (k := Prod.fst)
      (f := fun c (term : ℕ × α) => (c.addProduct (st.count entry.2 * term.2)
        (rowResidual st t entry)).addProduct (st.offset entry.2) term.2)
      (w := fun term => term.2 * (st.count entry.2 * rowResidual st t entry + st.offset entry.2))
      (fun c term => by
        rw [Compensated.value_addProduct, Compensated.value_addProduct]
        ring) entry.1.terms acc.2.1 j
    rw [LinearRow.gather_mul entry.1.terms
      (fun _ => st.count entry.2 * rowResidual st t entry + st.offset entry.2)] at h
    rw [← hres] at h
    rw [rowLinear, ← hres]
    exact h

/-- All rows. -/
theorem foldl_linearStep (entries : List (LinearRow α × ℕ))
    (acc : Compensated α × (ℕ → Compensated α) × α) :
    (entries.foldl (linearStep st t) acc).1.value =
      acc.1.value + (entries.map (rowQuadratic st t)).sum ∧
    (∀ j, ((entries.foldl (linearStep st t) acc).2.1 j).value =
      (acc.2.1 j).value + (entries.map fun entry => rowLinear st t entry j).sum) ∧
    (entries.foldl (linearStep st t) acc).2.2 =
      acc.2.2 + (entries.map fun entry => st.count entry.2).sum := by
  induction entries generalizing acc with
  | nil => simp
  | cons entry entries ih =>
    obtain ⟨hbase, hlinear, htotal⟩ := linearStep_spec st t acc entry
    obtain ⟨ihbase, ihlinear, ihtotal⟩ := ih (linearStep st t acc entry)
    simp only [List.foldl_cons, List.map_cons, List.sum_cons]
    refine ⟨?_, fun j => ?_, ?_⟩
    · rw [ihbase, hbase, add_assoc]
    · rw [ihlinear, hlinear, add_assoc]
    · rw [ihtotal, htotal, add_assoc]

end Rows

/-- A sum over entries with their places is a sum over the places. -/
theorem sum_zipIdx (rows : List (LinearRow α)) (f : LinearRow α × ℕ → α) :
    (rows.zipIdx.map f).sum = ∑ g ∈ Finset.range rows.length, f (rows.getD g ⟨0, []⟩, g) := by
  induction rows using List.reverseRecOn with
  | nil => simp
  | append_singleton rows row ih =>
    rw [List.zipIdx_append, List.map_append, List.sum_append, ih, List.length_append,
      List.length_singleton, Finset.sum_range_succ]
    congr 1
    · apply Finset.sum_congr rfl
      intro g hg
      rw [List.getD_append _ _ _ _ (Finset.mem_range.1 hg)]
    · simp

/-! ## The packed factor -/

/-- The upper triangle of a matrix. -/
def upper (r : ℕ → ℕ → α) (i j : ℕ) : α := if i ≤ j then r i j else 0

/-- A row of the triangle applied to a vector. -/
theorem sum_range'_upper (p : ℕ) (r : ℕ → ℕ → α) (f : ℕ → α) (i : ℕ) :
    ((List.range' i (p - i)).map fun j => r i j * f j).sum =
      ∑ j ∈ Finset.range p, upper r i j * f j := by
  have hico : ∑ j ∈ Finset.Ico i p, r i j * f j =
      ((List.range' i (p - i)).map fun j => r i j * f j).sum := by
    rw [Nat.Ico_eq_range']
    rfl
  have hfilter : (Finset.range p).filter (fun j => i ≤ j) = Finset.Ico i p := by
    ext j
    rw [Finset.mem_filter, Finset.mem_range, Finset.mem_Ico, and_comm]
  rw [← hico, ← hfilter, Finset.sum_filter]
  apply Finset.sum_congr rfl
  intro j _
  rw [upper, ite_mul, zero_mul]

/-- The rows still to come once `n` have been read. -/
def packedFrom {β : Type*} (p : ℕ) (r : ℕ → ℕ → β) (n : ℕ) : List β :=
  (List.range' n (p - n)).flatMap fun i => (List.range' i (p - i)).map (r i)

theorem packedFrom_zero {β : Type*} (p : ℕ) (r : ℕ → ℕ → β) : packedFrom p r 0 = packedTriangle p r := by
  rw [packedFrom, packedTriangle, List.range_eq_range', Nat.sub_zero]

theorem packedFrom_eq {β : Type*} {p n : ℕ} (hn : n < p) (r : ℕ → ℕ → β) :
    packedFrom p r n = (List.range' n (p - n)).map (r n) ++ packedFrom p r (n + 1) := by
  have hsplit : List.range' n (p - n) = n :: List.range' (n + 1) (p - (n + 1)) := by
    rw [show p - n = p - (n + 1) + 1 by omega, List.range'_succ]
  rw [packedFrom, hsplit, List.flatMap_cons, ← hsplit, packedFrom]

theorem packedFrom_getD {p n j : ℕ} (hn : n ≤ j) (hj : j < p) (r : ℕ → ℕ → α) :
    (packedFrom p r n).getD (j - n) 0 = r n j := by
  have hlt : j - n < ((List.range' n (p - n)).map (r n)).length := by
    rw [List.length_map, List.length_range']
    omega
  rw [packedFrom_eq (by omega), List.getD_append _ _ _ _ hlt, List.getD_eq_getElem _ _ hlt,
    List.getElem_map, List.getElem_range', one_mul, Nat.add_sub_cancel' hn]

/-- The kernel's pass over the packed rows. -/
theorem foldl_triangleStep (p : ℕ) (u : ℕ → α) (r : ℕ → ℕ → α) (q : α) {n : ℕ} (hn : n ≤ p) :
    let ru := fun i => ∑ j ∈ Finset.range p, upper r i j * u j
    let st := (List.range n).foldl (triangleStep p u) (packedTriangle p r, q, fun _ => 0)
    st.1 = packedFrom p r n ∧ st.2.1 = q + ∑ i ∈ Finset.range n, ru i ^ 2 ∧
      ∀ j < p, st.2.2 j = ∑ i ∈ Finset.range n, upper r i j * ru i := by
  intro ru
  induction n with
  | zero =>
    refine ⟨(packedFrom_zero p r).symm, ?_, fun j _ => rfl⟩
    rw [Finset.sum_range_zero, add_zero]
    rfl
  | succ n ih =>
    obtain ⟨hrow, hq, hd⟩ := ih (by omega)
    have hget : ∀ j ∈ List.range' n (p - n), (packedFrom p r n).getD (j - n) 0 = r n j := by
      intro j hj
      rw [List.mem_range'_1] at hj
      exact packedFrom_getD hj.1 (by omega) r
    have hacc : (List.range' n (p - n)).foldl
        (fun acc j => acc + (packedFrom p r n).getD (j - n) 0 * u j) 0 = ru n := by
      rw [foldl_add_map, zero_add, List.map_congr_left fun j hj => by rw [hget j hj],
        sum_range'_upper]
    rw [List.range_succ, List.foldl_append, List.foldl_cons, List.foldl_nil]
    dsimp only [triangleStep]
    rw [hrow, hacc, hq]
    refine ⟨?_, ?_, fun j hj => ?_⟩
    · rw [packedFrom_eq (by omega), List.drop_left' (by simp)]
    · rw [Finset.sum_range_succ, ← add_assoc, sq]
    · have h := view_foldl_update (id : α → α) (k := fun j : ℕ => j)
        (f := fun a j => a + (packedFrom p r n).getD (j - n) 0 * ru n)
        (w := fun j => (packedFrom p r n).getD (j - n) 0 * ru n) (fun _ _ => rfl)
        (List.range' n (p - n))
        ((List.range n).foldl (triangleStep p u) (packedTriangle p r, q, fun _ => 0)).2.2 j
      rw [Finset.sum_range_succ, ← hd j hj]
      apply h.trans
      congr 1
      rw [List.range'_eq_map_range, List.map_map]
      apply (gather_run n (p - n) (fun j => (packedFrom p r n).getD (j - n) 0 * ru n) j).trans
      rw [upper]
      by_cases hnj : n ≤ j
      · rw [if_pos ⟨hnj, by omega⟩, if_pos hnj, packedFrom_getD hnj hj]
      · rw [if_neg fun h => hnj h.1, if_neg hnj, zero_mul]

/-! ## Gram matrices -/

/-- `|M u|^2` through the entries of `M' M`. -/
theorem sum_sq_mul (m : ℕ → ℕ → α) (u : ℕ → α) (n p : ℕ) :
    ∑ i ∈ Finset.range n, (∑ j ∈ Finset.range p, m i j * u j) ^ 2 =
      ∑ j ∈ Finset.range p, ∑ k ∈ Finset.range p,
        (∑ i ∈ Finset.range n, m i j * m i k) * (u j * u k) := by
  have hterm : ∀ i, (∑ j ∈ Finset.range p, m i j * u j) ^ 2 =
      ∑ j ∈ Finset.range p, ∑ k ∈ Finset.range p, m i j * m i k * (u j * u k) := by
    intro i
    rw [sq, Finset.sum_mul_sum]
    refine Finset.sum_congr rfl fun j _ => Finset.sum_congr rfl fun k _ => ?_
    ring
  rw [Finset.sum_congr rfl fun i _ => hterm i, Finset.sum_comm]
  refine Finset.sum_congr rfl fun j _ => ?_
  rw [Finset.sum_comm]
  exact Finset.sum_congr rfl fun k _ => (Finset.sum_mul ..).symm

/-- `M' (M u)` through the entries of `M' M`. -/
theorem sum_mul_mul (m : ℕ → ℕ → α) (u : ℕ → α) (n p k : ℕ) :
    ∑ i ∈ Finset.range n, m i k * ∑ j ∈ Finset.range p, m i j * u j =
      ∑ j ∈ Finset.range p, (∑ i ∈ Finset.range n, m i j * m i k) * u j := by
  have hterm : ∀ i, m i k * ∑ j ∈ Finset.range p, m i j * u j =
      ∑ j ∈ Finset.range p, m i j * m i k * u j := by
    intro i
    rw [Finset.mul_sum]
    refine Finset.sum_congr rfl fun j _ => ?_
    ring
  rw [Finset.sum_congr rfl fun i _ => hterm i, Finset.sum_comm]
  exact Finset.sum_congr rfl fun j _ => (Finset.sum_mul ..).symm

end Stanli.Collapse
