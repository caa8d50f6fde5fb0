import Stanli.Constrain.Access
import Stanli.Constrain.CholeskyTransform
import Stanli.Constrain.Transforms

/-!
# The closed-form pullbacks are exact

Each pullback adds to the adjoint of every raw value of a leaf the derivative of the weighted outputs by
it, as soon as it reads what the forward of the leaf left: the constrained values of a simplex, the
exponentials of an ordered vector, the retained values of a Cholesky factor.

The pullback of a Cholesky factor runs over the rows, and over the entries of a row, from the last to the
first.  Before the entry `j` of a row it holds the derivative of the rest of the row by the sum of squares
behind `j` (`prefixAdj`), and the place of the raw value is that of the entry.  It adds to every raw value
what `cholPullback` says, as soon as the scratch holds what the forward retains (`Retains`).
-/

namespace Stanli.Constrain

open Finset Function Real

section Sums

variable {F : Elementary ℝ} {a : AdjDesc} {b raw con size : ℕ} {y seed : ℕ → ℝ}

/-- What a leaf adds to the adjoints of its raw values. -/
noncomputable def leafShare (a : AdjDesc) (b raw : ℕ) (d : ℕ → ℝ) : ℕ → ℝ :=
  ∑ i ∈ range raw, share (some a) (b * raw + i) (d i)

/-! ## The simplex -/

/-- The loop over the raw values, for the derivatives by the coordinates. -/
lemma simplexLoop_ok (hF : F.Lawful) {g : ℕ → ℝ} (sd : ℕ → ℝ) (lp : ℝ)
    (hg : ∀ j < raw + 1, g j = simplexAdj raw sd lp (simplexValue raw y) j)
    (hin : ∀ i < raw, b * raw + i < a.len) (m : ℕ → ℝ) : ∃ r : ℝ × (ℕ → ℝ),
      (List.range raw).foldlM (simplexBwdStep F b raw g a) (0, m) = .ok r ∧
      r.1 = ∑ j ∈ range raw, simplexAdj raw sd lp (simplexValue raw y) j ∧
      r.2 = m + leafShare a b raw (simplexPullback raw sd lp y) := by
  refine foldlM_range_ok (fun k (r : ℝ × (ℕ → ℝ)) =>
    r.1 = ∑ j ∈ range k, simplexAdj raw sd lp (simplexValue raw y) j ∧
    r.2 = m + ∑ i ∈ range k, share (some a) (b * raw + i) (simplexPullback raw sd lp y i)) ?_ ?_
  · rintro k hk ⟨sumU, m'⟩ ⟨hsum, hmem⟩
    dsimp only at hsum hmem
    unfold simplexBwdStep
    dsimp only
    rw [AdjDesc.add_ok (hin k hk), ok_bind, hg k (Nat.lt_succ_of_lt hk),
      hg (k + 1) (Nat.succ_lt_succ hk), hsum, ← sum_range_succ, hF.sqrt _ (by positivity)]
    refine ⟨_, rfl, rfl, ?_⟩
    rw [sum_range_succ (fun i => share (some a) (b * raw + i) (simplexPullback raw sd lp y i)), hmem,
      add_assoc]
    rfl
  · exact ⟨rfl, (add_zero m).symm⟩

theorem simplexBwdBatch_ok (hF : F.Lawful) {out : ℕ → ℝ}
    (hres : ∀ j < raw + 1, out (b * (raw + 1) + j) = simplexValue raw y j)
    (hin : ∀ i < raw, b * raw + i < a.len) (lp : ℝ) (m : ℕ → ℝ) :
    simplexBwdBatch F b raw (raw + 1) out seed lp a m =
      .ok (m + leafShare a b raw (simplexPullback raw (fun i => seed (b * (raw + 1) + i)) lp y)) := by
  set sd := fun i => seed (b * (raw + 1) + i) with hsd
  unfold simplexBwdBatch
  dsimp only
  have hdot : (List.range (raw + 1)).foldl (fun d i => d + sd i * out (b * (raw + 1) + i)) 0 =
      ∑ i ∈ range (raw + 1), sd i * simplexValue raw y i := by
    have hsum := seqSum_eq (fun i => sd i * out (b * (raw + 1) + i)) (raw + 1)
    rw [seqSum] at hsum
    rw [hsum]
    exact sum_congr rfl fun i hi => by rw [hres i (mem_range.1 hi)]
  rw [hdot]
  obtain ⟨r, hrun, -, hmem⟩ := simplexLoop_ok (b := b) (a := a) (y := y) hF
    (g := fun i => -out (b * (raw + 1) + i) * ((∑ i ∈ range (raw + 1), sd i * simplexValue raw y i) +
      ((raw + 1 : ℕ) : ℝ) * lp) + (out (b * (raw + 1) + i) * sd i + lp)) sd lp
    (fun j hj => by
      rw [simplexAdj, hres j hj]
      push_cast
      rfl) hin m
  rw [hrun, ok_bind, hmem]
  rfl

/-! ## Ordered vectors -/

/-- The sum of the entries from `n` on. -/
def tailSum {M : Type*} [AddCommMonoid M] (raw : ℕ) (f : ℕ → M) (n : ℕ) : M :=
  ∑ j ∈ range raw, if n ≤ j then f j else 0

section TailSum

variable {M : Type*} [AddCommMonoid M] (f : ℕ → M)

lemma tailSum_self (raw : ℕ) : tailSum raw f raw = 0 :=
  sum_eq_zero fun j hj => if_neg (by have := mem_range.1 hj; omega)

lemma tailSum_zero (raw : ℕ) : tailSum raw f 0 = ∑ j ∈ range raw, f j :=
  sum_congr rfl fun j _ => if_pos (Nat.zero_le j)

lemma tailSum_succ {raw n : ℕ} (hn : n < raw) : tailSum raw f n = tailSum raw f (n + 1) + f n := by
  have hsingle : f n = ∑ j ∈ range raw, if j = n then f j else 0 := by
    rw [sum_ite_eq', if_pos (mem_range.2 hn)]
  rw [hsingle, tailSum, tailSum, ← sum_add_distrib]
  refine sum_congr rfl fun j _ => ?_
  obtain hlt | rfl | hgt := lt_trichotomy j n
  · rw [if_neg (by omega), if_neg (by omega), if_neg (by omega), add_zero]
  · rw [if_pos le_rfl, if_neg (by omega), if_pos rfl, zero_add]
  · rw [if_pos (by omega), if_pos (by omega), if_neg (by omega), add_zero]

end TailSum

/-- The loop of either kind, from the last raw value down. -/
lemma orderedLoop_ok (positive : Bool) (con : ℕ) (seed y e : ℕ → ℝ) {steps : ℕ} (hsteps : steps ≤ raw)
    (hstep : ∀ t < steps, ¬(raw - 1 - t = 0 ∧ positive = false))
    (he : ∀ t < steps, e (raw - 1 - t) = exp (y (raw - 1 - t)))
    (hin : ∀ i < raw, b * raw + i < a.len) (lp : ℝ) (m : ℕ → ℝ) : ∃ r : ℝ × (ℕ → ℝ),
      (List.range steps).foldlM (fun r t =>
        orderedBwdStep b raw con seed lp a (raw - 1 - t) (e (raw - 1 - t)) r) (0, m) = .ok r ∧
      r.1 = tailSum raw (fun j => seed (b * con + j)) (raw - steps) ∧
      r.2 = m + tailSum raw (fun j => share (some a) (b * raw + j)
        (orderedPullback positive raw (fun j => seed (b * con + j)) lp y j)) (raw - steps) := by
  set s := fun j => seed (b * con + j) with hs
  set w := fun j => share (some a) (b * raw + j) (orderedPullback positive raw s lp y j) with hw
  refine foldlM_range_ok (fun t (r : ℝ × (ℕ → ℝ)) => r.1 = tailSum raw s (raw - t) ∧
    r.2 = m + tailSum raw w (raw - t)) ?_ ?_
  · rintro t ht ⟨rolling, m'⟩ ⟨hroll, hmem⟩
    dsimp only at hroll hmem
    have hn : raw - 1 - t < raw := by omega
    have hprev : raw - t = raw - 1 - t + 1 := by omega
    have hnext : raw - (t + 1) = raw - 1 - t := by omega
    have hrolling : rolling + s (raw - 1 - t) = tailSum raw s (raw - 1 - t) := by
      rw [hroll, hprev, ← tailSum_succ s hn]
    unfold orderedBwdStep
    dsimp only
    rw [AdjDesc.add_ok (hin _ hn), ok_bind]
    refine ⟨_, rfl, ?_, ?_⟩
    · rw [hnext]
      exact hrolling
    · have hpull : orderedPullback positive raw s lp y (raw - 1 - t) =
          e (raw - 1 - t) * (rolling + s (raw - 1 - t)) + lp := by
        rw [orderedPullback, if_neg (hstep t ht), he t ht, hrolling]
        rfl
      rw [hnext, tailSum_succ w hn, ← hprev, ← add_assoc, ← hmem, hw]
      dsimp only
      rw [hpull]
  · rw [Nat.sub_zero, tailSum_self, tailSum_self]
    exact ⟨rfl, (add_zero m).symm⟩

theorem orderedBwdBatch_ok {scratch : ℕ → ℝ}
    (hscratch : ∀ t < raw - 1, scratch (b * raw + t) = exp (y (t + 1)))
    (hin : ∀ i < raw, b * raw + i < a.len) (lp : ℝ) (m : ℕ → ℝ) :
    orderedBwdBatch b raw con scratch seed lp a m =
      .ok (m + leafShare a b raw (orderedPullback false raw (fun i => seed (b * con + i)) lp y)) := by
  obtain ⟨r, hrun, hroll, hmem⟩ := orderedLoop_ok false con seed y
    (fun n => scratch (b * raw + (n - 1))) (Nat.sub_le raw 1)
    (fun t ht h => by omega) (fun t ht => by
      rw [hscratch _ (by omega)]
      congr 2
      omega) hin lp m
  unfold orderedBwdBatch
  dsimp only
  rw [hrun, ok_bind]
  by_cases hraw : 0 < raw
  · have hone : raw - (raw - 1) = 0 + 1 := by omega
    have hadd := AdjDesc.add_ok (hin 0 hraw) (r.1 + seed (b * con)) r.2
    rw [Nat.add_zero] at hadd
    rw [if_pos hraw, hadd, hmem, hroll, hone, leafShare, ← tailSum_zero, tailSum_succ _ hraw,
      add_assoc]
    refine congrArg Except.ok ?_
    congr 2
    rw [Nat.add_zero, orderedPullback, if_pos ⟨rfl, rfl⟩, ← tailSum_zero, tailSum_succ _ hraw]
    rfl
  · have hzero : raw = 0 := by omega
    rw [if_neg hraw, hmem]
    subst hzero
    rfl

theorem positiveOrderedBwdBatch_ok {scratch : ℕ → ℝ}
    (hscratch : ∀ t < raw, scratch (b * raw + t) = exp (y t))
    (hin : ∀ i < raw, b * raw + i < a.len) (lp : ℝ) (m : ℕ → ℝ) :
    positiveOrderedBwdBatch b raw con scratch seed lp a m =
      .ok (m + leafShare a b raw (orderedPullback true raw (fun i => seed (b * con + i)) lp y)) := by
  obtain ⟨r, hrun, -, hmem⟩ := orderedLoop_ok true con seed y
    (fun n => scratch (b * raw + n)) le_rfl (fun t _ h => Bool.noConfusion h.2)
    (fun t ht => hscratch _ (by omega)) hin lp m
  unfold positiveOrderedBwdBatch
  dsimp only
  rw [hrun, ok_bind, hmem, Nat.sub_self, tailSum_zero]
  rfl

end Sums

/-! ## The Cholesky factor -/

variable {F : Elementary ℝ} {a : AdjDesc} {t : Retained ℝ} {size off b i j : ℕ}
  {y yRaw sd : ℕ → ℝ} {lp : ℝ}

lemma triangle_mono {i' : ℕ} (h : i ≤ i') : triangle i ≤ triangle i' := by
  induction h with
  | refl => exact le_rfl
  | step _ ih => exact ih.trans (by rw [triangle_succ]; exact Nat.le_add_right _ _)

/-- The raw values of a row come before those of the later rows. -/
lemma triangle_add_lt {i' : ℕ} (hj : j < i) (h : i < i') : triangle i + j < triangle i' := by
  have hmono := triangle_mono (Nat.succ_le_of_lt h)
  rw [Nat.succ_eq_add_one, triangle_succ] at hmono
  omega

/-- What the pullback reads of a leaf: the values that the forward retains. -/
structure Retains (size : ℕ) (y : ℕ → ℝ) (t : Retained ℝ) : Prop where
  z : ∀ k < triangle size, t.z k = Real.tanh (y k)
  pre : ∀ i < size, ∀ j < i, 0 < j → t.pre (triangle i + j) = prefixSq (rowTanh y i) j
  root : ∀ i < size, ∀ j < i, 0 < j → t.root (triangle i + j) = rootAt (rowTanh y i) j
  diagonal : ∀ i < size, 0 < i → t.diagonal i = rootAt (rowTanh y i) i

lemma Retains.z_row (h : Retains size y t) (hi : i < size) (hj : j < i) :
    t.z (triangle i + j) = rowTanh y i j := h.z _ (triangle_add_lt hj hi)

/-- Nothing else of the scratch matters. -/
lemma Retains.congr {raw : ℕ} {scratch scratch' : ℕ → ℝ}
    (h : Retains size y (Retained.ofScratch raw size b scratch))
    (heq : ∀ p, retainedAt raw size b ≤ p → p < retainedAt raw size b + (3 * triangle size + size) →
      scratch' p = scratch p) (hraw : raw = triangle size) :
    Retains size y (Retained.ofScratch raw size b scratch') := by
  have hin : ∀ p q, p = retainedAt raw size b + q → q < 3 * triangle size + size →
      scratch' p = scratch p := fun p q hp hq => heq p (by omega) (by omega)
  refine ⟨fun k hk => ?_, fun i hi j hj hpos => ?_, fun i hi j hj hpos => ?_, fun i hi hpos => ?_⟩
  · exact (hin _ k rfl (by omega)).trans (h.z k hk)
  · have hlt := triangle_add_lt hj hi
    exact (hin _ (raw + (triangle i + j)) (Nat.add_assoc _ _ _) (by omega)).trans (h.pre i hi j hj hpos)
  · have hlt := triangle_add_lt hj hi
    exact (hin _ (2 * raw + (triangle i + j)) (Nat.add_assoc _ _ _) (by omega)).trans
      (h.root i hi j hj hpos)
  · exact (hin _ (3 * raw + i) (Nat.add_assoc _ _ _) (by omega)).trans (h.diagonal i hi hpos)

/-- The derivative that an entry passes on to its raw value. -/
lemma cholScatter_ok (hF : F.Lawful) (h : Retains size y t) (hy : ∀ k < triangle size, yRaw k = y k)
    (hi : i < size) (hj : j < i) (hin : off + (triangle i + j) < a.len) {zAdj : ℝ}
    (hz : zAdj = tanhAdj (fun j => sd (j * size + i)) (sd (i * size + i)) lp i (rowTanh y i) (i - 1 - j))
    (m : ℕ → ℝ) : cholScatter F t yRaw lp a off (triangle i + j) zAdj m =
      .ok (m + share (some a) (off + (triangle i + j)) (cholAdj size sd lp y i j)) := by
  unfold cholScatter
  dsimp only
  rw [AdjDesc.add_ok hin, h.z_row hi hj, hF.cosh, hz, hy _ (triangle_add_lt hj hi)]
  rfl

/-- The derivative of the rest of a row by the sum of squares, `d` entries before its end. -/
noncomputable def rowAdj (size : ℕ) (sd : ℕ → ℝ) (lp : ℝ) (y : ℕ → ℝ) (i d : ℕ) : ℝ :=
  prefixAdj (fun j => sd (j * size + i)) (sd (i * size + i)) lp i (rowTanh y i) d

/-- What the entries of a row add, from the entry `n` on. -/
noncomputable def rowShare (a : AdjDesc) (off size : ℕ) (sd : ℕ → ℝ) (lp : ℝ) (y : ℕ → ℝ) (i n : ℕ) :
    ℕ → ℝ :=
  tailSum i (fun j => share (some a) (off + (triangle i + j)) (cholAdj size sd lp y i j)) n

lemma rowShare_succ {n : ℕ} (hn : n < i) (m : ℕ → ℝ) : m + rowShare a off size sd lp y i n =
    m + rowShare a off size sd lp y i (n + 1) +
      share (some a) (off + (triangle i + n)) (cholAdj size sd lp y i n) := by
  rw [rowShare, tailSum_succ _ hn, add_assoc]
  rfl

/-- One entry after the first of its row. -/
lemma cholBwdEntry_ok (hF : F.Lawful) (h : Retains size y t)
    (hy : ∀ k < triangle size, yRaw k = y k) (hi : i < size)
    (hin : ∀ k < triangle size, off + k < a.len) {l : ℕ} (hl : l < i - 1) (m : ℕ → ℝ) :
    cholBwdEntry F t size yRaw sd lp a off i (i - 1 - l)
        (triangle i + (i - l), rowAdj size sd lp y i l, m) =
      .ok (triangle i + (i - (l + 1)), rowAdj size sd lp y i (l + 1),
        m + share (some a) (off + (triangle i + (i - 1 - l))) (cholAdj size sd lp y i (i - 1 - l))) := by
  have hj : i - 1 - l < i := by omega
  have hpos : 0 < i - 1 - l := by omega
  have hk : triangle i + (i - l) - 1 = triangle i + (i - 1 - l) := by omega
  have hnext : triangle i + (i - (l + 1)) = triangle i + (i - 1 - l) := by omega
  have hback : i - 1 - (i - 1 - l) = l := by omega
  unfold cholBwdEntry
  dsimp only
  rw [hk, hnext, h.z_row hi hj, h.root i hi _ hj hpos, h.pre i hi _ hj hpos,
    cholScatter_ok hF h hy hi hj (hin _ (triangle_add_lt hj hi)) (by rw [hback]; rfl), ok_bind]
  rfl

/-- One row. -/
lemma cholBwdRow_ok (hF : F.Lawful) (h : Retains size y t) (hy : ∀ k < triangle size, yRaw k = y k)
    (hi : i < size) (hpos : 0 < i) (hin : ∀ k < triangle size, off + k < a.len) (m : ℕ → ℝ) :
    cholBwdRow F t size yRaw sd lp a off (triangle (i + 1), m) i =
      .ok (triangle i, m + rowShare a off size sd lp y i 0) := by
  obtain ⟨r, hrun, hk, hsum, hmem⟩ : ∃ r, (List.range (i - 1)).foldlM (fun r l =>
      cholBwdEntry F t size yRaw sd lp a off i (i - 1 - l) r)
      (triangle (i + 1), -(sd (i * size + i) / (2 * t.diagonal i)), m) = .ok r ∧
      r.1 = triangle i + (i - (i - 1)) ∧ r.2.1 = rowAdj size sd lp y i (i - 1) ∧
      r.2.2 = m + rowShare a off size sd lp y i (i - (i - 1)) := by
    refine foldlM_range_ok (fun l (r : ℕ × ℝ × (ℕ → ℝ)) => r.1 = triangle i + (i - l) ∧
      r.2.1 = rowAdj size sd lp y i l ∧ r.2.2 = m + rowShare a off size sd lp y i (i - l)) ?_ ?_
    · rintro l hl ⟨k, sumAdj, m'⟩ ⟨hk, hsum, hmem⟩
      dsimp only at hk hsum hmem
      subst hk hsum hmem
      refine ⟨_, cholBwdEntry_ok hF h hy hi hin hl _, rfl, rfl, ?_⟩
      have hprev : i - l = i - 1 - l + 1 := by omega
      have hnext : i - (l + 1) = i - 1 - l := by omega
      dsimp only
      rw [hprev, hnext, ← rowShare_succ (by omega)]
    · rw [triangle_succ, h.diagonal i hi hpos, rowShare, Nat.sub_zero, tailSum_self]
      exact ⟨rfl, rfl, (add_zero m).symm⟩
  have hone : i - (i - 1) = 0 + 1 := by omega
  -- what is left is the first entry, whose root is one
  have hroot : rootAt (rowTanh y i) 0 = 1 := by rw [rootAt, prefixSq, sub_zero, sqrt_one]
  have hfirst : sd i + rowAdj size sd lp y i (i - 1) * 2 * t.z (triangle i + 0) =
      tanhAdj (fun j => sd (j * size + i)) (sd (i * size + i)) lp i (rowTanh y i) (i - 1 - 0) := by
    rw [tanhAdj, Nat.sub_zero, Nat.sub_self, entryAt, hroot, h.z_row hi hpos, Nat.zero_mul,
      Nat.zero_add, mul_one, mul_one]
    rfl
  have hlast : triangle i + (0 + 1) - 1 = triangle i + 0 := by omega
  unfold cholBwdRow
  dsimp only
  rw [hrun, ok_bind, hk, hsum, hmem, hone, hlast,
    cholScatter_ok hF h hy hi hpos (hin _ (triangle_add_lt hpos hi)) hfirst, ok_bind,
    ← rowShare_succ hpos]
  rfl

/-- The shares of the entries are those of the raw values. -/
lemma sum_rowShare (a : AdjDesc) (b size : ℕ) (sd : ℕ → ℝ) (lp : ℝ) (y : ℕ → ℝ) :
    ∑ i ∈ range size, rowShare a (b * triangle size) size sd lp y i 0 =
      leafShare a b (triangle size) (cholPullback size sd lp y) := by
  set off := b * triangle size with hoff
  symm
  calc leafShare a b (triangle size) (cholPullback size sd lp y)
      = ∑ k ∈ range (triangle size), ∑ i ∈ range size, ∑ j ∈ range i,
          if triangle i + j = k then share (some a) (off + k) (cholAdj size sd lp y i j) else 0 := by
        refine sum_congr rfl fun k _ => ?_
        rw [cholPullback, share_sum]
        refine sum_congr rfl fun i _ => ?_
        rw [share_sum]
        refine sum_congr rfl fun j _ => ?_
        split
        · rfl
        · exact share_zero _ _
    _ = ∑ i ∈ range size, ∑ j ∈ range i, ∑ k ∈ range (triangle size),
          if triangle i + j = k then share (some a) (off + k) (cholAdj size sd lp y i j) else 0 := by
        rw [sum_comm]
        exact sum_congr rfl fun i _ => sum_comm
    _ = ∑ i ∈ range size, rowShare a off size sd lp y i 0 := by
        refine sum_congr rfl fun i hi => ?_
        rw [rowShare, tailSum_zero]
        refine sum_congr rfl fun j hj => ?_
        rw [sum_ite_eq, if_pos (mem_range.2 (triangle_add_lt (mem_range.1 hj) (mem_range.1 hi)))]

/-- The rows, from the last one down. -/
theorem cholBwdBatch_ok (hF : F.Lawful) {x scratch seed : ℕ → ℝ} {con : ℕ}
    (hx : ∀ k < triangle size, x (b * triangle size + k) = y k)
    (h : Retains size y (Retained.ofScratch (triangle size) size b scratch))
    (hin : ∀ k < triangle size, b * triangle size + k < a.len) (lp : ℝ) (m : ℕ → ℝ) :
    cholBwdBatch F b (triangle size) size con x scratch seed lp a m =
      .ok (m + leafShare a b (triangle size) (cholPullback size (fun i => seed (b * con + i)) lp y)) := by
  set off := b * triangle size with hoff
  set sd := fun i => seed (b * con + i) with hsd
  set f := fun i => rowShare a off size sd lp y i 0 with hf
  obtain ⟨r, hrun, -, hmem⟩ : ∃ r, (List.range (size - 1)).foldlM (fun r l =>
      cholBwdRow F (Retained.ofScratch (triangle size) size b scratch) size (fun k => x (off + k)) sd lp a
        off r (size - 1 - l)) (triangle size, m) = .ok r ∧
      r.1 = triangle (size - (size - 1)) ∧ r.2 = m + tailSum size f (size - (size - 1)) := by
    refine foldlM_range_ok (fun l (r : ℕ × (ℕ → ℝ)) => r.1 = triangle (size - l) ∧
      r.2 = m + tailSum size f (size - l)) ?_ ?_
    · rintro l hl ⟨k, m'⟩ ⟨hk, hmem⟩
      dsimp only at hk hmem
      subst hk hmem
      have hi : size - 1 - l < size := by omega
      have hprev : size - l = size - 1 - l + 1 := by omega
      have hnext : size - (l + 1) = size - 1 - l := by omega
      rw [hprev, hnext]
      refine ⟨_, cholBwdRow_ok hF h hx hi (by omega) hin _, rfl, ?_⟩
      dsimp only
      rw [tailSum_succ f hi, ← add_assoc]
    · rw [Nat.sub_zero, tailSum_self]
      exact ⟨rfl, (add_zero m).symm⟩
  unfold cholBwdBatch
  dsimp only
  rw [hrun, ok_bind, hmem, ← sum_rowShare, ← tailSum_zero]
  refine congrArg Except.ok (congrArg (m + ·) ?_)
  -- the first row has no raw value
  by_cases hsize : 0 < size
  · have hone : size - (size - 1) = 0 + 1 := by omega
    rw [hone, tailSum_succ _ hsize]
    exact (add_zero _).symm
  · obtain rfl : size = 0 := by omega
    rfl

end Stanli.Constrain
