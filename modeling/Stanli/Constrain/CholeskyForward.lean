import Stanli.Constrain.Pullbacks

/-!
# The forward of the Cholesky factor

The forward fills the factor row by row.  Between two entries it has filled the entries before a place
`(i, j)` of the triangle, and retains for each of them the hyperbolic tangent, the sum of squares before it
and its root (`Filled`).  At the end it has the factor, its log-Jacobian and all that the pullback reads
(`choleskyCorrRevValues_ok`).
-/

namespace Stanli.Constrain

open Finset Function Real

variable {F : Elementary ℝ} {size base i j : ℕ} {y scratch₀ : ℕ → ℝ} {lp₀ : ℝ} {s : CholState ℝ}

/-- The places of two entries below the diagonal differ. -/
lemma triangle_add_inj {i' j' : ℕ} (hj : j < i) (hj' : j' < i')
    (h : triangle i + j = triangle i' + j') : i = i' ∧ j = j' := by
  obtain hlt | rfl | hgt := lt_trichotomy i i'
  · have := triangle_add_lt hj hlt
    omega
  · exact ⟨rfl, by omega⟩
  · have := triangle_add_lt hj' hgt
    omega

lemma place_inj {r r' c c' : ℕ} (hr : r < size) (hr' : r' < size) (h : c * size + r = c' * size + r') :
    c = c' ∧ r = r' := by
  have hmod : ∀ c r, r < size → (c * size + r) % size = r := fun c r hr => by
    rw [Nat.mul_add_mod_self_right, Nat.mod_eq_of_lt hr]
  have hrow : r = r' := by rw [← hmod c r hr, h, hmod c' r' hr']
  subst hrow
  exact ⟨Nat.eq_of_mul_eq_mul_right (Nat.lt_of_le_of_lt (Nat.zero_le r) hr) (Nat.add_right_cancel h), rfl⟩

/-- The entries before `(i, j)`, row by row. -/
def Before (i j r c : ℕ) : Prop := r < i ∨ r = i ∧ c < j

instance (i j r c : ℕ) : Decidable (Before i j r c) := inferInstanceAs (Decidable (_ ∨ _))

/-- The share of the log-Jacobian of an entry, but for that of its hyperbolic tangent. -/
noncomputable def entryJacobian (y : ℕ → ℝ) (i j : ℕ) : ℝ := 1 / 2 * log (1 - prefixSq (rowTanh y i) j)

/-- The entries before `(i, j)` are filled. -/
structure Filled (size base : ℕ) (y scratch₀ : ℕ → ℝ) (lp₀ : ℝ) (i j : ℕ) (s : CholState ℝ) : Prop where
  k : s.k = triangle i + j
  x : ∀ r < size, ∀ c, s.x (c * size + r) = if Before i j r c then cholValue y r c else 0
  z : ∀ k < triangle size, s.scratch (base + k) = Real.tanh (y k)
  pre : ∀ r < size, ∀ c < r, Before i j r c →
    s.scratch (base + triangle size + (triangle r + c)) = prefixSq (rowTanh y r) c
  root : ∀ r < size, ∀ c < r, Before i j r c →
    s.scratch (base + 2 * triangle size + (triangle r + c)) = rootAt (rowTanh y r) c
  diagonal : ∀ r < size, 0 < r → r < i →
    s.scratch (base + 3 * triangle size + r) = rootAt (rowTanh y r) r
  frame : ∀ p, p < base ∨ base + (3 * triangle size + size) ≤ p → s.scratch p = scratch₀ p
  lp : s.lp = lp₀ + (∑ r ∈ range i, ∑ c ∈ range r, entryJacobian y r c) +
    ∑ c ∈ range j, entryJacobian y i c
  eligible : s.eligible = true

namespace Filled

/-- One more entry. -/
lemma write (h : Filled size base y scratch₀ lp₀ i j s) (hi : i < size) (hj : j < i) {s' : CholState ℝ}
    (hx : s'.x = update s.x (j * size + i) (entryAt (rowTanh y i) j))
    (hscratch : s'.scratch = update (update s.scratch (base + triangle size + s.k)
      (prefixSq (rowTanh y i) j)) (base + 2 * triangle size + s.k) (rootAt (rowTanh y i) j))
    (hk : s'.k = s.k + 1) (hlp : s'.lp = s.lp + entryJacobian y i j) (he : s'.eligible = true) :
    Filled size base y scratch₀ lp₀ i (j + 1) s' := by
  have hplace := triangle_add_lt hj hi
  have hsucc : ∀ {r c : ℕ}, Before i (j + 1) r c → Before i j r c ∨ r = i ∧ c = j := by
    intro r c hb
    unfold Before at hb ⊢
    omega
  rw [h.k] at hscratch
  have hother : ∀ p, p ≠ base + triangle size + (triangle i + j) →
      p ≠ base + 2 * triangle size + (triangle i + j) → s'.scratch p = s.scratch p := by
    intro p hne hne'
    rw [hscratch, update_of_ne hne', update_of_ne hne]
  constructor
  case k => rw [hk, h.k, Nat.add_assoc]
  case x =>
    intro r hr c
    rw [hx]
    by_cases hrc : r = i ∧ c = j
    · obtain ⟨rfl, rfl⟩ := hrc
      have hb : Before r (c + 1) r c := Or.inr ⟨rfl, Nat.lt_succ_self c⟩
      rw [update_self, if_pos hb, cholValue, if_pos hj]
    · have hne : c * size + r ≠ j * size + i := fun heq => by
        have := place_inj hr hi heq
        omega
      rw [update_of_ne hne, h.x r hr c]
      refine if_congr ?_ rfl rfl
      unfold Before
      omega
  case z =>
    intro k hk
    rw [hother _ (by omega) (by omega), h.z k hk]
  case pre =>
    intro r hr c hc hb
    have hrc := triangle_add_lt hc hr
    obtain hb | ⟨rfl, rfl⟩ := hsucc hb
    · have hne : triangle r + c ≠ triangle i + j := fun heq => by
        have := triangle_add_inj hc hj heq
        unfold Before at hb
        omega
      rw [hother _ (by omega) (by omega), h.pre r hr c hc hb]
    · rw [hscratch, update_of_ne (by omega), update_self]
  case root =>
    intro r hr c hc hb
    have hrc := triangle_add_lt hc hr
    obtain hb | ⟨rfl, rfl⟩ := hsucc hb
    · have hne : triangle r + c ≠ triangle i + j := fun heq => by
        have := triangle_add_inj hc hj heq
        unfold Before at hb
        omega
      rw [hother _ (by omega) (by omega), h.root r hr c hc hb]
    · rw [hscratch, update_self]
  case diagonal =>
    intro r hr hpos hlt
    rw [hother _ (by omega) (by omega), h.diagonal r hr hpos hlt]
  case frame =>
    intro p hp
    rw [hother _ (by omega) (by omega), h.frame p hp]
  case lp => rw [hlp, h.lp, sum_range_succ _ j, add_assoc]
  case eligible => exact he

/-- The first entry of a row. -/
lemma first (hF : F.Lawful) (h : Filled size base y scratch₀ lp₀ i 0 s) (hi : i < size) (hpos : 0 < i) :
    Filled size base y scratch₀ lp₀ i 1 (cholFirst F (triangle size) base y i s) ∧
      (cholFirst F (triangle size) base y i s).sumSqs = prefixSq (rowTanh y i) 1 := by
  have hroot : rootAt (rowTanh y i) 0 = 1 := by rw [rootAt, prefixSq, sub_zero, sqrt_one]
  have hentry : F.tanh (y s.k) = entryAt (rowTanh y i) 0 := by
    rw [entryAt, hroot, mul_one, hF.tanh, h.k]
    rfl
  refine ⟨h.write hi hpos ?_ ?_ rfl ?_ h.eligible, ?_⟩
  · rw [Nat.zero_mul, Nat.zero_add, ← hentry]
    rfl
  · rw [hroot]
    rfl
  · rw [entryJacobian, prefixSq, sub_zero, log_one, mul_zero, add_zero]
    rfl
  · rw [prefixSq_succ, ← hentry, prefixSq, zero_add]
    rfl

/-- One entry after the first of its row. -/
lemma entry (hF : F.Lawful) (h : Filled size base y scratch₀ lp₀ i j s) (hi : i < size) (hj : j < i)
    (hsum : s.sumSqs = prefixSq (rowTanh y i) j) :
    Filled size base y scratch₀ lp₀ i (j + 1) (cholEntry F (triangle size) size base y i s j) ∧
      (cholEntry F (triangle size) size base y i s j).sumSqs = prefixSq (rowTanh y i) (j + 1) := by
  have hz : ∀ l < i, rowTanh y i l * rowTanh y i l < 1 := fun l _ => tanh_mul_self_lt_one _
  have hlt := prefixSq_lt_one hz hj.le
  have hroot : F.sqrt (1 - s.sumSqs) = rootAt (rowTanh y i) j := by
    rw [hsum, hF.sqrt _ (by linarith)]
    rfl
  have hentry : F.tanh (y s.k) * F.sqrt (1 - s.sumSqs) = entryAt (rowTanh y i) j := by
    rw [hroot, hF.tanh, h.k]
    rfl
  refine ⟨h.write hi hj ?_ ?_ rfl ?_ ?_, ?_⟩
  · rw [← hentry]
    rfl
  · rw [← hroot, ← hsum]
    rfl
  · rw [entryJacobian, ← hsum, ← hF.log1m _ (hsum ▸ hlt)]
    rfl
  · change (s.eligible && decide (0 < F.sqrt (1 - s.sumSqs))) = true
    rw [h.eligible, hroot, decide_eq_true (rootAt_pos hz hj.le)]
    rfl
  · rw [prefixSq_succ, ← hentry, ← hsum]
    rfl

/-- The diagonal entry of a row. -/
lemma diagonalEntry (hF : F.Lawful) (h : Filled size base y scratch₀ lp₀ i i s) (hi : i < size)
    (hsum : s.sumSqs = prefixSq (rowTanh y i) i) :
    Filled size base y scratch₀ lp₀ (i + 1) 0 (cholDiagonal F (triangle size) size base i s) := by
  have hz : ∀ l < i, rowTanh y i l * rowTanh y i l < 1 := fun l _ => tanh_mul_self_lt_one _
  have hlt := prefixSq_lt_one hz le_rfl
  have hroot : F.sqrt (1 - s.sumSqs) = rootAt (rowTanh y i) i := by
    rw [hsum, hF.sqrt _ (by linarith)]
    rfl
  have hother : ∀ p, p ≠ base + 3 * triangle size + i →
      (cholDiagonal F (triangle size) size base i s).scratch p = s.scratch p :=
    fun p hp => update_of_ne hp _ _
  have hbefore : ∀ {r c : ℕ}, c < r → Before (i + 1) 0 r c → Before i i r c := by
    intro r c hc hb
    unfold Before at hb ⊢
    omega
  constructor
  case k => exact h.k.trans (triangle_succ i).symm
  case x =>
    intro r hr c
    change update s.x (i * size + i) (F.sqrt (1 - s.sumSqs)) (c * size + r) = _
    by_cases hrc : r = i ∧ c = i
    · have hb : Before (i + 1) 0 i i := Or.inl (Nat.lt_succ_self i)
      rw [hrc.1, hrc.2, update_self, if_pos hb, hroot, cholValue, if_neg (lt_irrefl i), if_pos rfl]
    · have hne : c * size + r ≠ i * size + i := fun heq => by
        have := place_inj hr hi heq
        omega
      rw [update_of_ne hne, h.x r hr c]
      by_cases habove : r = i ∧ i < c
      · -- above the diagonal
        have hzero : cholValue y r c = 0 := by rw [cholValue, if_neg (by omega), if_neg (by omega)]
        rw [hzero, ite_self, ite_self]
      · refine if_congr ?_ rfl rfl
        unfold Before
        omega
  case z =>
    intro k hk
    rw [hother _ (by omega), h.z k hk]
  case pre =>
    intro r hr c hc hb
    have hrc := triangle_add_lt hc hr
    rw [hother _ (by omega), h.pre r hr c hc (hbefore hc hb)]
  case root =>
    intro r hr c hc hb
    have hrc := triangle_add_lt hc hr
    rw [hother _ (by omega), h.root r hr c hc (hbefore hc hb)]
  case diagonal =>
    intro r hr hpos hr'
    by_cases hri : r = i
    · subst hri
      change update s.scratch _ (F.sqrt (1 - s.sumSqs)) _ = _
      rw [update_self, hroot]
    · rw [hother _ (by omega), h.diagonal r hr hpos (by omega)]
  case frame =>
    intro p hp
    rw [hother _ (by omega), h.frame p hp]
  case lp =>
    rw [sum_range_zero, add_zero, sum_range_succ, ← add_assoc]
    exact h.lp
  case eligible =>
    change (s.eligible && decide (0 < F.sqrt (1 - s.sumSqs))) = true
    rw [h.eligible, hroot, decide_eq_true (rootAt_pos hz le_rfl)]
    rfl

/-- One row. -/
lemma row (hF : F.Lawful) (h : Filled size base y scratch₀ lp₀ i 0 s) (hi : i < size) (hpos : 0 < i) :
    Filled size base y scratch₀ lp₀ (i + 1) 0 (cholRow F (triangle size) size base y s i) := by
  obtain ⟨hfill, hsum⟩ := foldl_range_inv (n := i - 1) (fun l (s : CholState ℝ) =>
      Filled size base y scratch₀ lp₀ i (l + 1) s ∧ s.sumSqs = prefixSq (rowTanh y i) (l + 1))
    (fun l hl s hs => hs.1.entry hF hi (by omega) hs.2) (h.first hF hi hpos)
  rw [Nat.sub_add_cancel hpos] at hfill hsum
  exact hfill.diagonalEntry hF hi hsum

end Filled

/-- The loop over the raw values. -/
lemma cholTanh_eq (hF : F.Lawful) (raw base : ℕ) (y : ℕ → ℝ) (s : CholState ℝ) :
    cholTanh F raw base y s = { s with
      scratch := storeRun s.scratch base raw fun k => Real.tanh (y k)
      lp := s.lp + ∑ k ∈ range raw, log (1 - Real.tanh (y k) * Real.tanh (y k)) } := by
  set z := fun k => Real.tanh (y k) with hz
  set r := (List.range raw).foldl (fun (r : CholState ℝ × ℝ) i =>
    ({ r.1 with
        scratch := update r.1.scratch (base + i) (F.tanh (y i))
        eligible := r.1.eligible && decide (F.tanh (y i) * F.tanh (y i) < 1) },
      r.2 + F.log1m (F.tanh (y i) * F.tanh (y i)))) (s, 0) with hr
  have hrun : r.1 = { s with scratch := storeRun s.scratch base raw z } ∧
      r.2 = ∑ k ∈ range raw, log (1 - z k * z k) := by
    refine foldl_range_inv (fun i (r : CholState ℝ × ℝ) =>
      r.1 = { s with scratch := storeRun s.scratch base i z } ∧
      r.2 = ∑ k ∈ range i, log (1 - z k * z k)) ?_ ?_
    · rintro i - ⟨s', jac⟩ ⟨rfl, rfl⟩
      have hlt : z i * z i < 1 := tanh_mul_self_lt_one (y i)
      dsimp only
      rw [hF.tanh, decide_eq_true hlt, Bool.and_true, hF.log1m _ hlt, storeRun_succ, sum_range_succ]
      exact ⟨rfl, rfl⟩
    · rw [storeRun_zero]
      exact ⟨rfl, rfl⟩
  change { r.1 with lp := r.1.lp + r.2 } = _
  rw [hrun.1, hrun.2]

/-- What the forward leaves of a leaf. -/
structure CholDone (size b : ℕ) (y scratch₀ : ℕ → ℝ) (lp₀ : ℝ) (s : CholState ℝ) : Prop where
  x : ∀ r < size, ∀ c < size, s.x (c * size + r) = cholValue y r c
  lp : s.lp = lp₀ + cholLogJacobian size y
  eligible : s.eligible = true
  retains : Retains size y (Retained.ofScratch (triangle size) size b s.scratch)
  frame : ∀ p, p < retainedAt (triangle size) size b ∨
    retainedAt (triangle size) size b + (3 * triangle size + size) ≤ p → s.scratch p = scratch₀ p

theorem choleskyCorrRevValues_ok (hF : F.Lawful) (size b : ℕ) (y scratch₀ : ℕ → ℝ) (lp₀ : ℝ) :
    ∃ s, choleskyCorrRevValues F (triangle size) size (retainedAt (triangle size) size b) y lp₀ scratch₀
      true = .ok s ∧ CholDone size b y scratch₀ lp₀ s := by
  set base := retainedAt (triangle size) size b with hbase
  set jac := ∑ k ∈ range (triangle size), log (1 - Real.tanh (y k) * Real.tanh (y k)) with hjac
  have hmatch : ¬triangle size ≠ size * (size - 1) / 2 := not_not.2 rfl
  have hz : ∀ k < triangle size, storeRun scratch₀ base (triangle size) (fun k => Real.tanh (y k))
      (base + k) = Real.tanh (y k) := fun k hk => storeRun_of_lt _ _ _ hk
  have hframe : ∀ p, p < base ∨ base + (3 * triangle size + size) ≤ p →
      storeRun scratch₀ base (triangle size) (fun k => Real.tanh (y k)) p = scratch₀ p :=
    fun p hp => storeRun_of_not _ _ (by omega)
  unfold choleskyCorrRevValues
  rw [if_neg hmatch, cholTanh_eq hF]
  dsimp only
  obtain rfl | hsize := Nat.eq_zero_or_pos size
  · refine ⟨_, if_pos rfl, ?_⟩
    refine ⟨fun r hr => absurd hr (Nat.not_lt_zero r), ?_, rfl, ?_, hframe⟩
    · dsimp only
      rw [cholLogJacobian, sum_range_zero, add_zero]
    · exact ⟨fun k hk => absurd hk (Nat.not_lt_zero k), fun i hi => absurd hi (Nat.not_lt_zero i),
        fun i hi => absurd hi (Nat.not_lt_zero i), fun i hi => absurd hi (Nat.not_lt_zero i)⟩
  · refine ⟨_, if_neg hsize.ne', ?_⟩
    have hfill := foldl_range_inv (n := size - 1) (fun i (s : CholState ℝ) =>
        Filled size base y scratch₀ (lp₀ + jac) (i + 1) 0 s)
      (f := fun s i => cholRow F (triangle size) size base y s (i + 1))
      (s := ⟨update 0 0 1, storeRun scratch₀ base (triangle size) fun k => Real.tanh (y k), 0, 0,
        lp₀ + jac, true⟩)
      (fun i hi s hs => hs.row hF (by omega) (Nat.succ_pos i)) ?_
    · rw [Nat.sub_add_cancel hsize] at hfill
      have hbefore : ∀ {r c : ℕ}, r < size → Before size 0 r c := fun hr => Or.inl hr
      constructor
      case x =>
        intro r hr c _
        rw [hfill.x r hr c, if_pos (hbefore hr)]
      case lp =>
        rw [hfill.lp, sum_range_zero, add_zero, cholLogJacobian, add_assoc]
        rfl
      case eligible => exact hfill.eligible
      case retains =>
        exact ⟨hfill.z, fun i hi j hj _ => hfill.pre i hi j hj (hbefore hi),
          fun i hi j hj _ => hfill.root i hi j hj (hbefore hi),
          fun i hi hpos => hfill.diagonal i hi hpos hi⟩
      case frame => exact hfill.frame
    · -- the first row is the corner
      constructor
      case k => rfl
      case x =>
        intro r hr c
        change update (0 : ℕ → ℝ) 0 1 (c * size + r) = _
        by_cases hrc : r = 0 ∧ c = 0
        · have hb : Before 1 0 0 0 := Or.inl Nat.one_pos
          rw [hrc.1, hrc.2, Nat.zero_mul, Nat.zero_add, update_self, if_pos hb, cholValue,
            if_neg (lt_irrefl 0), if_pos rfl, rootAt, prefixSq, sub_zero, sqrt_one]
        · have hne : c * size + r ≠ 0 := by
            intro hzero
            obtain ⟨hc, hr'⟩ := Nat.add_eq_zero_iff.1 hzero
            obtain hc | hc := Nat.mul_eq_zero.1 hc
            · exact hrc ⟨hr', hc⟩
            · omega
          rw [update_of_ne hne]
          split
          · rename_i hb
            unfold Before at hb
            rw [cholValue, if_neg (by omega), if_neg (by omega)]
            rfl
          · rfl
      case z => exact hz
      case pre =>
        intro r _ c hc hb
        unfold Before at hb
        omega
      case root =>
        intro r _ c hc hb
        unfold Before at hb
        omega
      case diagonal =>
        intro r _ hpos hr
        omega
      case frame => exact hframe
      case lp =>
        rw [sum_range_one, sum_range_zero, sum_range_zero, add_zero, add_zero]
      case eligible => rfl

end Stanli.Constrain
