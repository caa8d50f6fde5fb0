import Stanli.Constrain.Access
import Stanli.Constrain.Transforms

/-!
# The elementwise kernels are exact

On arguments that have a value, each forward leaves the transform of every element, the sum of the
logarithms of the derivatives, and in the scratch what the backward reads; each backward adds every
element's terms to the cells that the element reads.
-/

namespace Stanli.Constrain

open Finset Function Real
open Collapse (Desc)

variable {F : Elementary ℝ} {n : ℕ} {x : ℕ → ℝ}

/-! ## Loops over cells -/

/-- A loop that leaves one number in the scratch and one in the output for every element. -/
lemma setBoth_loop {f : Cells ℝ → ℕ → Except Failure (Cells ℝ)} {e o : ℕ → ℝ}
    (hf : ∀ i < n, ∀ c, f c i = .ok ((c.setScratch i (e i)).setOut i (o i))) (c : Cells ℝ) :
    ∃ c', (List.range n).foldlM f c = .ok c' ∧ (∀ i < n, c'.out i = o i) ∧
      (∀ i < n, c'.scratch i = e i) ∧ c'.out2 = c.out2 := by
  refine foldlM_range_ok (fun k (c' : Cells ℝ) => (∀ i < k, c'.out i = o i) ∧
    (∀ i < k, c'.scratch i = e i) ∧ c'.out2 = c.out2) ?_ ?_
  · rintro k hk c₁ ⟨hout, hscratch, hout2⟩
    refine ⟨_, hf k hk c₁, fun i hi => ?_, fun i hi => ?_, hout2⟩
    · change update c₁.out k (o k) i = o i
      obtain rfl | hne := eq_or_ne i k
      · rw [update_self]
      · rw [update_of_ne hne, hout i (by omega)]
    · change update c₁.scratch k (e k) i = e i
      obtain rfl | hne := eq_or_ne i k
      · rw [update_self]
      · rw [update_of_ne hne, hscratch i (by omega)]
  · exact ⟨fun i hi => absurd hi (Nat.not_lt_zero i), fun i hi => absurd hi (Nat.not_lt_zero i), rfl⟩

/-- A loop that leaves one number in the output for every element, and may read the scratch. -/
lemma setOut_loop {f : Cells ℝ → ℕ → Except Failure (Cells ℝ)} {o : ℕ → ℝ} (c : Cells ℝ)
    (hf : ∀ i < n, ∀ c', c'.scratch = c.scratch → f c' i = .ok (c'.setOut i (o i))) :
    ∃ c', (List.range n).foldlM f c = .ok c' ∧ (∀ i < n, c'.out i = o i) ∧
      c'.scratch = c.scratch ∧ c'.out2 = c.out2 := by
  refine foldlM_range_ok (fun k (c' : Cells ℝ) => (∀ i < k, c'.out i = o i) ∧
    c'.scratch = c.scratch ∧ c'.out2 = c.out2) ?_ ?_
  · rintro k hk c₁ ⟨hout, hscratch, hout2⟩
    refine ⟨_, hf k hk c₁ hscratch, fun i hi => ?_, hscratch, hout2⟩
    change update c₁.out k (o k) i = o i
    obtain rfl | hne := eq_or_ne i k
    · rw [update_self]
    · rw [update_of_ne hne, hout i (by omega)]
  · exact ⟨fun i hi => absurd hi (Nat.not_lt_zero i), rfl, rfl⟩

lemma out_foldl_setOut (o : ℕ → ℝ) (n : ℕ) (c : Cells ℝ) {i : ℕ} (hi : i < n) :
    ((List.range n).foldl (fun c i => c.setOut i (o i)) c).out i = o i := by
  induction n with
  | zero => exact absurd hi (Nat.not_lt_zero i)
  | succ n ih =>
    rw [List.range_succ, List.foldl_append, List.foldl_cons, List.foldl_nil]
    rw [Cells.setOut_out]
    obtain rfl | hne := eq_or_ne i n
    · rw [update_self]
    · rw [update_of_ne hne, ih (by omega)]

lemma foldl_setScratch (e : ℕ → ℝ) (n : ℕ) (c : Cells ℝ) :
    (∀ i < n, ((List.range n).foldl (fun c i => c.setScratch i (e i)) c).scratch i = e i) ∧
      ((List.range n).foldl (fun c i => c.setScratch i (e i)) c).out2 = c.out2 := by
  induction n with
  | zero => exact ⟨fun i hi => absurd hi (Nat.not_lt_zero i), rfl⟩
  | succ n ih =>
    rw [List.range_succ, List.foldl_append, List.foldl_cons, List.foldl_nil]
    refine ⟨fun i hi => ?_, ih.2⟩
    rw [Cells.setScratch_scratch]
    obtain rfl | hne := eq_or_ne i n
    · rw [update_self]
    · rw [update_of_ne hne, ih.1 i (by omega)]

/-! ## One-sided bounds -/

section OneSided

variable {arg : Desc (Extended ℝ)} {xAdj argAdj : Option AdjDesc}

/-- What a forward with one bound leaves for an element. -/
noncomputable def oneSidedValue (apply : ℝ → ℝ → ℝ) (b : Extended ℝ) (x : ℝ) : ℝ :=
  if b.isInfinite then x else apply b.num (exp x)

lemma maskedSum_ok (hs : Shaped n arg) (hv : (Bound.ofDesc arg).varies = true) (x : ℕ → ℝ) :
    maskedSum x arg n = .ok (∑ i ∈ range n, if (arg.at_ i).isInfinite then 0 else x i) := by
  unfold maskedSum
  have hstep : ∀ i < n, ∀ s : ℝ, (do
      let b ← read arg i
      return s + if b.isInfinite then 0 else x i : Except Failure ℝ) =
        .ok (s + if (arg.at_ i).isInfinite then 0 else x i) := by
    intro i hi s
    rw [read_ok (hs.len_of_varies hv ▸ hi), Shaped.at_of_varies hv]
    rfl
  rw [foldlM_range_add n hstep, zero_add]

/-- A forward with one bound. -/
theorem oneSidedFwd_ok (hF : F.Lawful) (apply : ℝ → ℝ → ℝ) (hs : Shaped n arg) (hne : arg.len ≠ 0)
    (x : ℕ → ℝ) (c : Cells ℝ) : ∃ c', oneSidedFwd F apply n x arg c = .ok c' ∧
      (∀ i < n, c'.out i = oneSidedValue apply (arg.at_ i) (x i)) ∧
      c'.out2 = ∑ i ∈ range n, (if (arg.at_ i).isInfinite then 0 else x i) ∧
      ∀ i < n, (arg.at_ i).isInfinite = false → c'.scratch i = exp (x i) := by
  unfold oneSidedFwd
  dsimp only
  rw [hasInf_ok hs hne]
  cases hinf : someInfinite arg n with
  | true =>
    cases hv : (Bound.ofDesc arg).varies with
    | false =>
      -- the shared bound is infinite, and the transform is the identity
      have hall : ∀ i < n, (arg.at_ i).isInfinite = true := fun i hi =>
        infinite_of_someInfinite hs hv hinf hi
      refine ⟨_, rfl, fun i hi => ?_, ?_, fun i hi hfin => ?_⟩
      · rw [oneSidedValue, if_pos (hall i hi)]
        exact out_foldl_setOut x n c hi
      · exact (sum_eq_zero fun i hi => if_pos (hall i (mem_range.1 hi))).symm
      · rw [hall i hi] at hfin
        exact Bool.noConfusion hfin
    | true =>
      have hstep : ∀ i < n, ∀ c : Cells ℝ, (do
          let bi ← (Bound.ofDesc arg).get i
          return (c.setScratch i (F.exp (x i))).setOut i
            (if bi.isInfinite then x i else apply bi.num (F.exp (x i))) : Except Failure (Cells ℝ)) =
            .ok ((c.setScratch i (exp (x i))).setOut i (oneSidedValue apply (arg.at_ i) (x i))) := by
        intro i hi c
        rw [Bound.get_ok hs hi, hF.exp]
        rfl
      obtain ⟨c', hrun, hout, hscratch, -⟩ := setBoth_loop hstep c
      refine ⟨{ c' with out2 := ∑ i ∈ range n, if (arg.at_ i).isInfinite then 0 else x i }, ?_, hout,
        rfl, fun i hi _ => hscratch i hi⟩
      rw [hrun]
      simp only [ok_bind, maskedSum_ok hs hv]
      rfl
  | false =>
    have hfin : ∀ i < n, (arg.at_ i).isInfinite = false := fun i hi => finite_of_someInfinite hs hinf hi
    have hstep : ∀ i < n, ∀ c : Cells ℝ, (do
        let bi ← (Bound.ofDesc arg).get i
        return (c.setScratch i (F.exp (x i))).setOut i (apply bi.num (F.exp (x i))) :
          Except Failure (Cells ℝ)) =
          .ok ((c.setScratch i (exp (x i))).setOut i (oneSidedValue apply (arg.at_ i) (x i))) := by
      intro i hi c
      rw [Bound.get_ok hs hi, hF.exp, oneSidedValue, hfin i hi]
      rfl
    obtain ⟨c', hrun, hout, hscratch, -⟩ := setBoth_loop hstep c
    refine ⟨{ c' with out2 := seqSum x n }, ?_, hout, ?_, fun i hi _ => hscratch i hi⟩
    · rw [hrun]
      rfl
    · change seqSum x n = _
      rw [seqSum_eq]
      refine sum_congr rfl fun i hi => ?_
      rw [hfin i (mem_range.1 hi), if_neg Bool.false_ne_true]

/-- The lanes of a bound that varies add at once, so that nothing is ever pending. -/
lemma varyingLanes_ok (hs : Shaped n arg) (hv : (Bound.ofDesc arg).varies = true)
    (ha : Fits arg.len argAdj) (dout m : ℕ → ℝ) : ∃ r : BoundAdj ℝ × (ℕ → ℝ),
      (List.range n).foldlM (fun (r : BoundAdj ℝ × (ℕ → ℝ)) i => do
        let bi ← (Bound.ofDesc arg).get i
        r.1.addUnless bi.isInfinite i (dout i) r.2) (BoundAdj.ofDesc arg argAdj, m) =
          .ok r ∧
      r.1.Serves arg argAdj ∧ r.2 = m + ∑ i ∈ range n,
        share argAdj (arg.slot i) (if (arg.at_ i).isInfinite then 0 else dout i) := by
  have hpending : ∀ b : BoundAdj ℝ, b.Serves arg argAdj → b.pending = 0 := by
    intro b hb
    rw [BoundAdj.pending, hb.varies, hv, if_pos rfl]
  refine foldlM_range_ok (fun k (r : BoundAdj ℝ × (ℕ → ℝ)) => r.1.Serves arg argAdj ∧
    r.2 = m + ∑ i ∈ range k,
      share argAdj (arg.slot i) (if (arg.at_ i).isInfinite then 0 else dout i)) ?_ ?_
  · rintro k hk r ⟨hserves, hmem⟩
    obtain ⟨b, m', hadd, hb, hm'⟩ :=
      hserves.addUnless_ok hs ha hk (arg.at_ k).isInfinite (dout k) r.2
    rw [hpending _ hserves, hpending _ hb, add_zero, add_zero] at hm'
    refine ⟨(b, m'), ?_, hb, ?_⟩
    · rw [Bound.get_ok hs hk, ok_bind, hadd]
    · rw [hm', hmem, sum_range_succ, add_assoc]
  · exact ⟨BoundAdj.serves_ofDesc arg argAdj, (add_zero m).symm⟩

/-- A backward with one bound, for the sign that the exponential has in the transform. -/
theorem oneSidedBwd_ok (sign : ℝ → ℝ) (hs : Shaped n arg) (hne : arg.len ≠ 0) (hx : Fits n xAdj)
    (ha : Fits arg.len argAdj) {expX : ℕ → ℝ}
    (hscratch : ∀ i < n, (arg.at_ i).isInfinite = false → expX i = exp (x i)) (dout : ℕ → ℝ)
    (lp : ℝ) (m : ℕ → ℝ) : oneSidedBwd sign n arg xAdj argAdj expX dout lp m =
      .ok (m + (∑ i ∈ range n, share xAdj i
          (if (arg.at_ i).isInfinite then dout i else sign (dout i) * exp (x i) + lp)) +
        ∑ i ∈ range n, share argAdj (arg.slot i) (if (arg.at_ i).isInfinite then 0 else dout i)) := by
  unfold oneSidedBwd
  dsimp only
  rw [hasInf_ok hs hne]
  cases hinf : someInfinite arg n with
  | true =>
    have hraw : ∀ i < n, ∀ m : ℕ → ℝ, (if (Bound.ofDesc arg).varies = false then addTo xAdj i (dout i) m
        else do
          let bi ← (Bound.ofDesc arg).get i
          addTo xAdj i (if bi.isInfinite then dout i else sign (dout i) * expX i + lp) m) =
        .ok (m + share xAdj i
          (if (arg.at_ i).isInfinite then dout i else sign (dout i) * exp (x i) + lp)) := by
      intro i hi m
      cases hv : (Bound.ofDesc arg).varies with
      | false =>
        rw [if_pos rfl, addTo_ok hx hi, infinite_of_someInfinite hs hv hinf hi, if_pos rfl]
      | true =>
        rw [if_neg (by simp), Bound.get_ok hs hi]
        change addTo xAdj i _ m = _
        rw [addTo_ok hx hi]
        cases hb : (arg.at_ i).isInfinite with
        | true => rfl
        | false => rw [hscratch i hi hb]
    change (_ >>= _) = _
    rw [foldlM_range_add n hraw]
    change (if (Bound.ofDesc arg).varies = true then _ else _) = _
    cases hv : (Bound.ofDesc arg).varies with
    | false =>
      have hnone : ∑ i ∈ range n,
          share argAdj (arg.slot i) (if (arg.at_ i).isInfinite then 0 else dout i) = 0 := by
        refine sum_eq_zero fun i hi => ?_
        rw [infinite_of_someInfinite hs hv hinf (mem_range.1 hi), if_pos rfl, share_zero]
      rw [if_neg Bool.false_ne_true, hnone, add_zero]
      rfl
    | true =>
      rw [if_pos rfl]
      obtain ⟨r, hrun, -, hmem⟩ := varyingLanes_ok hs hv ha dout _
      rw [hrun, ← hmem]
      rfl
  | false =>
    have hfin : ∀ i < n, (arg.at_ i).isInfinite = false := fun i hi => finite_of_someInfinite hs hinf hi
    have hraw : ∀ i < n, ∀ m : ℕ → ℝ, addTo xAdj i (sign (dout i) * expX i + lp) m =
        .ok (m + share xAdj i
          (if (arg.at_ i).isInfinite then dout i else sign (dout i) * exp (x i) + lp)) := by
      intro i hi m
      rw [addTo_ok hx hi, hscratch i hi (hfin i hi), hfin i hi, if_neg Bool.false_ne_true]
    change (_ >>= _) = _
    rw [foldlM_range_add n hraw]
    change addBoundAdj arg argAdj dout n _ = _
    rw [addBoundAdj_ok hs hne ha]
    congr 2
    refine sum_congr rfl fun i hi => ?_
    rw [hfin i (mem_range.1 hi), if_neg Bool.false_ne_true]

end OneSided

/-! ## Offset and multiplier -/

section OffsetMult

variable {mu sg : Desc (Extended ℝ)} {xAdj muAdj sgAdj : Option AdjDesc}

/-- The offsets and the multipliers that the checks accept. -/
structure Admissible (mu sg : Desc (Extended ℝ)) : Prop where
  offset : ∀ j < mu.len, (mu.data j).isInfinite = false
  multiplier : ∀ j < sg.len, (sg.data j).isInfinite = false ∧ 0 < (sg.data j).num

lemma Admissible.check_ok (h : Admissible mu sg) (rows : ℕ) :
    checkOffsetMultiplier mu sg rows = .ok () := by
  unfold checkOffsetMultiplier
  rw [foldlM_range_checks fun i hi => by rw [h.offset i hi, if_neg Bool.false_ne_true], ok_bind]
  exact foldlM_range_checks fun i hi => if_pos (h.multiplier i hi)

lemma Admissible.at_pos (h : Admissible mu sg) (hs : Shaped n sg) {i : ℕ} (hi : i < n) :
    0 < (sg.at_ i).num := (h.multiplier _ (hs.slot_lt hi)).2

lemma readShared_ok {a : Desc (Extended ℝ)} (hs : Shaped n a) {i : ℕ} (hi : i < n) :
    readShared a i = .ok (a.at_ i).num := by
  rw [readShared, Bound.slot_eq hs hi, read_ok (hs.slot_lt hi)]
  rfl

/-- The forward with an offset and a multiplier. -/
theorem offsetMultFwd_ok (hF : F.Lawful) (hm : Shaped n mu) (hs : Shaped n sg) (h : Admissible mu sg)
    (hne : sg.len ≠ 0) (x : ℕ → ℝ) (rows : ℕ) (c : Cells ℝ) :
    ∃ c', offsetMultFwd F n x mu sg rows c = .ok c' ∧
      (∀ i < n, c'.out i = (sg.at_ i).num * x i + (mu.at_ i).num) ∧
      c'.out2 = ∑ i ∈ range n, log (sg.at_ i).num := by
  have hstep : ∀ i < n, ∀ c' : Cells ℝ, c'.scratch = c.scratch → (do
      let s ← readShared sg i
      let o ← readShared mu i
      return c'.setOut i (s * x i + o) : Except Failure (Cells ℝ)) =
        .ok (c'.setOut i ((sg.at_ i).num * x i + (mu.at_ i).num)) := by
    intro i hi c' _
    rw [readShared_ok hs hi, ok_bind, readShared_ok hm hi]
    rfl
  obtain ⟨c', hrun, hout, -, -⟩ := setOut_loop c hstep
  unfold offsetMultFwd
  rw [h.check_ok, ok_bind, hrun, ok_bind]
  by_cases hv : 1 < sg.len
  · have hvaries : (Bound.ofDesc sg).varies = true := by
      rw [Bound.varies_ofDesc, decide_eq_true hv]
    have hsum : ∀ i < n, ∀ s : ℝ, (do
        let v ← read sg i
        return s + F.log v.num : Except Failure ℝ) = .ok (s + log (sg.at_ i).num) := by
      intro i hi s
      rw [read_ok (hs.len_of_varies hvaries ▸ hi), ok_bind, ← Shaped.at_of_varies hvaries,
        hF.log _ (h.at_pos hs hi)]
      rfl
    rw [if_pos hv, foldlM_range_add n hsum, ok_bind, zero_add]
    exact ⟨_, rfl, hout, rfl⟩
  · have hvaries : (Bound.ofDesc sg).varies = false := by
      rw [Bound.varies_ofDesc, decide_eq_false hv]
    have hlen := Nat.pos_of_ne_zero hne
    rw [if_neg hv, read_ok hlen, ok_bind, hF.log _ (h.multiplier 0 hlen).2]
    refine ⟨_, rfl, hout, ?_⟩
    have hlog : ∀ i ∈ range n, log (sg.at_ i).num = log (sg.data 0).num := fun i hi => by
      rw [hs.at_eq hvaries (mem_range.1 hi)]
    rw [sum_congr rfl hlog, sum_const, card_range, nsmul_eq_mul]

/-- The loop over an adjoint, or nothing. -/
lemma whenPresent_ok {a : Option AdjDesc} {f : AdjDesc → (ℕ → ℝ) → Except Failure (ℕ → ℝ)}
    {w : Option AdjDesc → ℕ → ℝ} (hnone : w none = 0) (m : ℕ → ℝ)
    (hf : ∀ d, a = some d → f d m = .ok (m + w (some d))) : whenPresent a f m = .ok (m + w a) := by
  cases a with
  | none =>
    rw [hnone, add_zero]
    rfl
  | some d => exact hf d rfl

/-- The backward with an offset and a multiplier. -/
theorem offsetMultBwd_ok (hm : Shaped n mu) (hs : Shaped n sg) (hmne : mu.len ≠ 0 ∨ muAdj = none)
    (hsne : sg.len ≠ 0) (hx : Fits n xAdj) (hma : Fits mu.len muAdj) (hsa : Fits sg.len sgAdj)
    (dout : ℕ → ℝ) (lp : ℝ) (m : ℕ → ℝ) :
    offsetMultBwd n x mu sg xAdj muAdj sgAdj dout lp m =
      .ok (m + (∑ i ∈ range n, share xAdj i (dout i * (sg.at_ i).num)) +
        (∑ i ∈ range n, share muAdj (mu.slot i) (dout i)) +
        ∑ i ∈ range n, share sgAdj (sg.slot i) (dout i * x i + lp / (sg.at_ i).num)) := by
  have hnone : ∀ (slot : ℕ → ℕ) (v : ℕ → ℝ), ∑ i ∈ range n, share none (slot i) (v i) = 0 :=
    fun slot v => sum_eq_zero fun i _ => rfl
  unfold offsetMultBwd
  rw [whenPresent_ok (w := fun a => ∑ i ∈ range n, share a i (dout i * (sg.at_ i).num))
    (hnone (fun i => i) _) m fun d hd => ?raw, ok_bind]
  rw [whenPresent_ok (w := fun a => ∑ i ∈ range n, share a (mu.slot i) (dout i)) (hnone _ _) _
    fun d hd => ?offset, ok_bind]
  rw [whenPresent_ok (w := fun a => ∑ i ∈ range n,
    share a (sg.slot i) (dout i * x i + lp / (sg.at_ i).num)) (hnone _ _) _ fun d hd => ?multiplier]
  case raw =>
    have hstep : ∀ i < n, ∀ m : ℕ → ℝ, (do
        let s ← readShared sg i
        d.add i (dout i * s) m : Except Failure (ℕ → ℝ)) =
          .ok (m + share (some d) i (dout i * (sg.at_ i).num)) := by
      intro i hi m
      rw [readShared_ok hs hi, ok_bind, AdjDesc.add_ok (hx d hd ▸ hi)]
    exact foldlM_range_add n hstep m
  case offset =>
    subst hd
    have hne : mu.len ≠ 0 := hmne.resolve_right (Option.some_ne_none d)
    have hadd := addBoundAdj_ok hm hne hma dout (m + ∑ i ∈ range n, share xAdj i (dout i * (sg.at_ i).num))
    simpa only [addBoundAdj, whenPresent, Bound.varies_ofDesc, decide_eq_true_eq] using hadd
  case multiplier =>
    by_cases hv : 1 < sg.len
    · have hvaries : (Bound.ofDesc sg).varies = true := by
        rw [Bound.varies_ofDesc, decide_eq_true hv]
      have hlen := hs.len_of_varies hvaries
      have hstep : ∀ i < n, ∀ m : ℕ → ℝ, (do
          let m ← d.add i (dout i * x i) m
          let s ← read sg i
          d.add i (lp / s.num) m : Except Failure (ℕ → ℝ)) =
            .ok (m + share (some d) (sg.slot i) (dout i * x i + lp / (sg.at_ i).num)) := by
        intro i hi m
        have hlt : i < d.len := by rwa [hsa d hd, hlen]
        rw [AdjDesc.add_ok hlt, ok_bind, read_ok (hlen ▸ hi), ok_bind, AdjDesc.add_ok hlt,
          hs.slot_of_varies hvaries hi, Shaped.at_of_varies hvaries, share_add, add_assoc]
      rw [if_pos hv]
      exact foldlM_range_add n hstep _
    · have hvaries : (Bound.ofDesc sg).varies = false := by
        rw [Bound.varies_ofDesc, decide_eq_false hv]
      have hlen := Nat.pos_of_ne_zero hsne
      rw [if_neg hv, read_ok hlen, ok_bind, AdjDesc.add_ok (hsa d hd ▸ hlen), seqSum_eq]
      congr 2
      have hfold : ∑ i ∈ range n, dout i * x i + lp * n / (sg.data 0).num =
          ∑ i ∈ range n, (dout i * x i + lp / (sg.data 0).num) := by
        rw [sum_add_distrib, sum_const, card_range, nsmul_eq_mul]
        ring
      rw [hfold, share_sum]
      refine sum_congr rfl fun i hi => ?_
      rw [hs.slot_of_shared hvaries (mem_range.1 hi), hs.at_eq hvaries (mem_range.1 hi)]

end OffsetMult

end Stanli.Constrain
