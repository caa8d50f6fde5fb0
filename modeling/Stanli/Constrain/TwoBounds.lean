import Mathlib.Algebra.BigOperators.Field
import Stanli.Constrain.ElementSound

/-!
# The kernel with two bounds

`clu_fwd` and `clu_bwd` resolve every element by which of its bounds are infinite.  Where neither bound
varies, the backward folds the shares of the Jacobian into one product; where one varies, it adds them
element by element.  Both come to the same shares (`cluBwd_ok`).
-/

namespace Stanli.Constrain

open Finset Function Real
open Collapse (Desc)

variable {F : Elementary ℝ} {n : ℕ} {x : ℕ → ℝ} {la ua : Desc (Extended ℝ)}
variable {xAdj lbAdj ubAdj : Option AdjDesc}

/-! ## The bounds of a call -/

/-- Bounds that are used together are in order. -/
def OrderedArgs (la ua : Desc (Extended ℝ)) : Prop :=
  ∀ j < la.len, ∀ k < ua.len, (1 < la.len → 1 < ua.len → j = k) → Ordered (la.data j) (ua.data k)

/-- One lower bound, which is infinite. -/
def SharedInfinite (a : Desc (Extended ℝ)) : Prop :=
  (Bound.ofDesc a).varies = false ∧ (a.data 0).isInfinite = true

/-- The bounds that the kernel reads even when there are no elements. -/
structure Readable (la ua : Desc (Extended ℝ)) : Prop where
  lower : la.len ≠ 0
  upper : ua.len ≠ 0 ∨ SharedInfinite la

/-- Two bounds that a call may have. -/
structure Paired (n : ℕ) (la ua : Desc (Extended ℝ)) : Prop where
  lower : Shaped n la
  upper : Shaped n ua
  ordered : OrderedArgs la ua

namespace Paired

lemma at_ordered (h : Paired n la ua) {i : ℕ} (hi : i < n) : Ordered (la.at_ i) (ua.at_ i) := by
  refine h.ordered _ (h.lower.slot_lt hi) _ (h.upper.slot_lt hi) fun hl hu => ?_
  unfold Desc.slot
  rw [if_neg (by omega), if_neg (by omega)]

lemma zero_ordered (h : Paired n la ua) (hl : la.len ≠ 0) (hu : ua.len ≠ 0) :
    Ordered (la.data 0) (ua.data 0) :=
  h.ordered 0 (Nat.pos_of_ne_zero hl) 0 (Nat.pos_of_ne_zero hu) fun _ _ => rfl

/-- The order of the bounds is checked without leaving the buffers. -/
lemma check_ok (h : Paired n la ua) (hr : Readable la ua) :
    checkLubBounds (Bound.ofDesc la) (Bound.ofDesc ua) n = .ok () := by
  unfold checkLubBounds
  rw [Bound.get_zero hr.lower, ok_bind]
  by_cases hl : ((la.data 0).isInfinite && !(Bound.ofDesc la).varies) = true
  · rw [if_pos hl]
    rfl
  have hu : ua.len ≠ 0 := by
    obtain hu | ⟨hv, hinf⟩ := hr.upper
    · exact hu
    · rw [hv, hinf] at hl
      exact absurd rfl hl
  rw [if_neg hl, Bound.get_zero hu, ok_bind]
  by_cases hu' : ((ua.data 0).isInfinite && !(Bound.ofDesc ua).varies) = true
  · rw [if_pos hu']
    rfl
  rw [if_neg hu']
  dsimp only
  set varies := (Bound.ofDesc la).varies || (Bound.ofDesc ua).varies with hvaries
  refine foldlM_range_checks fun i hi => ?_
  cases hv : varies with
  | true =>
    rw [hv, if_pos rfl] at hi
    rw [Bound.get_ok h.lower hi, ok_bind, Bound.get_ok h.upper hi, ok_bind]
    exact if_pos (h.at_ordered hi)
  | false =>
    rw [hv, if_neg Bool.false_ne_true] at hi
    obtain rfl : i = 0 := by omega
    rw [Bound.get_zero hr.lower, ok_bind, Bound.get_zero hu, ok_bind]
    exact if_pos (h.zero_ordered hr.lower hu)

/-- Whether a call takes the path for infinite bounds. -/
lemma inf_ok (h : Paired n la ua) (hr : Readable la ua) :
    eitherInf (Bound.ofDesc la) (Bound.ofDesc ua) n =
      .ok (someInfinite la n || someInfinite ua n) := by
  rw [eitherInf, hasInf_ok h.lower hr.lower, ok_bind]
  cases hl : someInfinite la n with
  | true => rfl
  | false =>
    rw [if_neg Bool.false_ne_true, Bool.false_or]
    refine hasInf_ok h.upper ?_
    obtain hu | ⟨hv, hinf⟩ := hr.upper
    · exact hu
    · rw [someInfinite, hv, if_neg Bool.false_ne_true, hinf] at hl
      exact Bool.noConfusion hl

/-- On the path for finite bounds both bounds have a value, and every element's bounds are finite. -/
lemma finite_of_inf (h : Paired n la ua) (hr : Readable la ua)
    (hinf : (someInfinite la n || someInfinite ua n) = false) : ua.len ≠ 0 ∧
      ∀ i < n, (la.at_ i).isInfinite = false ∧ (ua.at_ i).isInfinite = false := by
  rw [Bool.or_eq_false_iff] at hinf
  refine ⟨?_, fun i hi => ⟨finite_of_someInfinite h.lower hinf.1 hi,
    finite_of_someInfinite h.upper hinf.2 hi⟩⟩
  obtain hu | ⟨hv, hdata⟩ := hr.upper
  · exact hu
  · rw [someInfinite, hv, if_neg Bool.false_ne_true, hdata] at hinf
    exact Bool.noConfusion hinf.1

end Paired

/-! ## The forward -/

/-- The logarithm of the derivative, as the code resolves it. -/
lemma boundedLogSlope_code (hF : F.Lawful) {lb ub : Extended ℝ} (h : Ordered lb ub) (x : ℝ) :
    boundedLogSlope lb ub x = if lb.isInfinite && ub.isInfinite then 0
      else if lb.isInfinite || ub.isInfinite then x
      else F.log (ub.num - lb.num) + logisticTerm F x := by
  cases lb with
  | infinite =>
    cases ub with
    | infinite => exact boundedLogSlope_infinite x
    | finite u => exact boundedLogSlope_upper u x
  | finite l =>
    cases ub with
    | infinite => exact boundedLogSlope_lower l x
    | finite u =>
      change _ = F.log (u - l) + logisticTerm F x
      rw [boundedLogSlope_both, log_mul h.sub_pos.ne' (sigmoid_mul_pos x).ne', hF.log _ h.sub_pos,
        logisticTerm, hF.log1pExp, log_sigmoid_abs]

/-- The transform, as the code resolves it. -/
lemma bounded_code (hF : F.Lawful) (lb ub : Extended ℝ) (x : ℝ) :
    bounded lb ub x = if lb.isInfinite && ub.isInfinite then x
      else if lb.isInfinite then ub.num - F.exp x
      else if ub.isInfinite then F.exp x + lb.num
      else (ub.num - lb.num) * sigmoid x + lb.num := by
  rw [hF.exp]
  cases lb <;> cases ub <;> rfl

/-- `clu_inv_logit` stores the logistic function, by whichever formula. -/
lemma cluInvLogit_spec (hF : F.Lawful) (n : ℕ) (x : ℕ → ℝ) (c : Cells ℝ) :
    (∀ i < n, (cluInvLogit F n x c).scratch i = sigmoid (x i)) ∧ (cluInvLogit F n x c).out2 = c.out2 := by
  unfold cluInvLogit
  split
  · rename_i hn
    refine ⟨fun i hi => ?_, rfl⟩
    obtain rfl : i = 0 := by omega
    rw [Cells.setScratch_scratch, update_self, hF.invLogit]
  · obtain ⟨hscratch, hout2⟩ := foldl_setScratch (fun i => F.exp (x i) / (1 + F.exp (x i))) n c
    refine ⟨fun i hi => ?_, hout2⟩
    rw [hscratch i hi, hF.exp, exp_div_one_add_exp]

/-- What a forward with two bounds leaves. -/
structure LeavesBounded (n : ℕ) (x : ℕ → ℝ) (la ua : Desc (Extended ℝ)) (c' : Cells ℝ) : Prop where
  out : ∀ i < n, c'.out i = bounded (la.at_ i) (ua.at_ i) (x i)
  out2 : c'.out2 = ∑ i ∈ range n, boundedLogSlope (la.at_ i) (ua.at_ i) (x i)
  scratch : ∀ i < n, c'.scratch i = sigmoid (x i)

/-- The loop over the outputs, after the Jacobian and the logistic function are stored. -/
lemma outputs_ok (hF : F.Lawful) {c : Cells ℝ} {f : Cells ℝ → ℕ → Except Failure (Cells ℝ)}
    (hf : ∀ i < n, ∀ c', c'.scratch i = sigmoid (x i) →
      f c' i = .ok (c'.setOut i (bounded (la.at_ i) (ua.at_ i) (x i)))) :
    ∃ c', (List.range n).foldlM f (cluInvLogit F n x
        { c with out2 := ∑ i ∈ range n, boundedLogSlope (la.at_ i) (ua.at_ i) (x i) }) = .ok c' ∧
      LeavesBounded n x la ua c' := by
  obtain ⟨hscratch, hout2⟩ := cluInvLogit_spec hF n x
    { c with out2 := ∑ i ∈ range n, boundedLogSlope (la.at_ i) (ua.at_ i) (x i) }
  obtain ⟨c', hrun, hout, hsc, ho2⟩ := setOut_loop _ fun i hi c' hc' =>
    hf i hi c' (by rw [hc', hscratch i hi])
  refine ⟨c', hrun, hout, ho2.trans hout2, fun i hi => ?_⟩
  rw [hsc, hscratch i hi]

lemma cluFwdInf_ok (hF : F.Lawful) (h : Paired n la ua) (x : ℕ → ℝ) (c : Cells ℝ) :
    ∃ c', cluFwdInf F n x (Bound.ofDesc la) (Bound.ofDesc ua) c = .ok c' ∧
      LeavesBounded n x la ua c' := by
  have hsum : ∀ i < n, ∀ jac : ℝ, (do
      let l ← (Bound.ofDesc la).get i
      let u ← (Bound.ofDesc ua).get i
      return if l.isInfinite && u.isInfinite then jac
        else if l.isInfinite || u.isInfinite then jac + x i
        else jac + (F.log (u.num - l.num) + logisticTerm F (x i)) : Except Failure ℝ) =
        .ok (jac + boundedLogSlope (la.at_ i) (ua.at_ i) (x i)) := by
    intro i hi jac
    rw [Bound.get_ok h.lower hi, ok_bind, Bound.get_ok h.upper hi, ok_bind,
      boundedLogSlope_code hF (h.at_ordered hi)]
    refine congrArg Except.ok ?_
    split
    · rw [add_zero]
    · split <;> rfl
  rw [cluFwdInf, foldlM_range_add n hsum, ok_bind, zero_add]
  refine outputs_ok hF fun i hi c' hc' => ?_
  rw [Bound.get_ok h.lower hi, ok_bind, Bound.get_ok h.upper hi, ok_bind, hc', bounded_code hF]
  rfl

/-- The difference of an element's bounds: of its own, or of the shared ones. -/
lemma Paired.diff_eq (h : Paired n la ua) {i : ℕ} (hi : i < n) :
    (if (Bound.ofDesc la).varies || (Bound.ofDesc ua).varies then
      (ua.at_ i).num - (la.at_ i).num else (ua.data 0).num - (la.data 0).num) =
      (ua.at_ i).num - (la.at_ i).num := by
  cases hl : (Bound.ofDesc la).varies with
  | true => rfl
  | false =>
    cases hu : (Bound.ofDesc ua).varies with
    | true => rfl
    | false => rw [h.lower.at_eq hl hi, h.upper.at_eq hu hi, ite_self]

/-- The forward with two bounds. -/
theorem cluFwd_ok (hF : F.Lawful) (h : Paired n la ua) (hr : Readable la ua) (x : ℕ → ℝ)
    (c : Cells ℝ) : ∃ c', cluFwd F n x la ua c = .ok c' ∧ LeavesBounded n x la ua c' := by
  have hinf := h.inf_ok hr
  unfold cluFwd
  dsimp only
  rw [h.check_ok hr, ok_bind, hinf, ok_bind]
  cases hpath : someInfinite la n || someInfinite ua n with
  | true => exact cluFwdInf_ok hF h x c
  | false =>
    obtain ⟨hu, hfin⟩ := h.finite_of_inf hr hpath
    have hsum : ∀ i < n, ∀ jac : ℝ, (do
        let l ← (Bound.ofDesc la).get i
        let u ← (Bound.ofDesc ua).get i
        return jac + ((if (Bound.ofDesc la).varies || (Bound.ofDesc ua).varies then
          F.log (u.num - l.num) else F.log ((ua.data 0).num - (la.data 0).num)) +
            logisticTerm F (x i)) : Except Failure ℝ) =
          .ok (jac + boundedLogSlope (la.at_ i) (ua.at_ i) (x i)) := by
      intro i hi jac
      rw [Bound.get_ok h.lower hi, ok_bind, Bound.get_ok h.upper hi, ok_bind,
        boundedLogSlope_code hF (h.at_ordered hi), (hfin i hi).1, (hfin i hi).2, ← apply_ite F.log,
        h.diff_eq hi]
      rfl
    rw [if_neg Bool.false_ne_true, Bound.get_zero hu, ok_bind, Bound.get_zero hr.lower, ok_bind,
      foldlM_range_add n hsum, ok_bind, zero_add]
    refine outputs_ok hF fun i hi c' hc' => ?_
    rw [Bound.get_ok h.lower hi, ok_bind, Bound.get_ok h.upper hi, ok_bind, hc', bounded_code hF,
      (hfin i hi).1, (hfin i hi).2, h.diff_eq hi]
    rfl

/-! ## The backward -/

/-- The derivative by the raw value, as the code resolves it. -/
lemma rawTerm_code (hF : F.Lawful) (s lp : ℝ) (lb ub : Extended ℝ) (x : ℝ) :
    rawTerm s lp lb ub x = if lb.isInfinite && ub.isInfinite then s
      else if lb.isInfinite then -s * F.exp x + lp
      else if ub.isInfinite then s * F.exp x + lp
      else s * (ub.num - lb.num) * sigmoid x * (1 - sigmoid x) + lp * (1 - 2 * sigmoid x) := by
  rw [hF.exp]
  cases lb <;> cases ub <;> rfl

lemma lowerTerm_code (s lp : ℝ) (lb ub : Extended ℝ) (x : ℝ) :
    lowerTerm s lp lb ub x = if lb.isInfinite then 0
      else if ub.isInfinite then s
      else s * (1 - sigmoid x) - 1 / (ub.num - lb.num) * lp := by
  cases lb <;> cases ub <;> rfl

lemma upperTerm_code (s lp : ℝ) (lb ub : Extended ℝ) (x : ℝ) :
    upperTerm s lp lb ub x = if ub.isInfinite then 0
      else if lb.isInfinite then s
      else s * sigmoid x + 1 / (ub.num - lb.num) * lp := by
  cases lb <;> cases ub <;> rfl

/-- The shares of the raw value and of both bounds. -/
noncomputable def boundedShares (n : ℕ) (x : ℕ → ℝ) (la ua : Desc (Extended ℝ)) (xAdj lbAdj ubAdj : Option AdjDesc)
    (dout : ℕ → ℝ) (lp : ℝ) : ℕ → ℝ :=
  (∑ i ∈ range n, share xAdj i (rawTerm (dout i) lp (la.at_ i) (ua.at_ i) (x i))) +
    (∑ i ∈ range n, share lbAdj (la.slot i) (lowerTerm (dout i) lp (la.at_ i) (ua.at_ i) (x i))) +
    ∑ i ∈ range n, share ubAdj (ua.slot i) (upperTerm (dout i) lp (la.at_ i) (ua.at_ i) (x i))

variable {il : ℕ → ℝ}

/-- One element of the path for infinite bounds: what it adds, or leaves in the lanes. -/
lemma cluBwdInfElement_ok (hF : F.Lawful) (h : Paired n la ua) (hx : Fits n xAdj)
    (hl : Fits la.len lbAdj) (hu : Fits ua.len ubAdj) {i : ℕ} (hi : i < n)
    (hil : il i = sigmoid (x i)) (dout : ℕ → ℝ) (lp : ℝ) {r : BoundAdj ℝ × BoundAdj ℝ × (ℕ → ℝ)}
    (hrl : r.1.Serves la lbAdj) (hru : r.2.1.Serves ua ubAdj) : ∃ r',
      cluBwdInfElement F x (Bound.ofDesc la) (Bound.ofDesc ua) xAdj il dout lp r i = .ok r' ∧
      r'.1.Serves la lbAdj ∧ r'.2.1.Serves ua ubAdj ∧
      r'.2.2 + r'.1.pending + r'.2.1.pending = r.2.2 + r.1.pending + r.2.1.pending +
        (share xAdj i (rawTerm (dout i) lp (la.at_ i) (ua.at_ i) (x i)) +
          share lbAdj (la.slot i) (lowerTerm (dout i) lp (la.at_ i) (ua.at_ i) (x i)) +
          share ubAdj (ua.slot i) (upperTerm (dout i) lp (la.at_ i) (ua.at_ i) (x i))) := by
  obtain ⟨bl, ml, haddl, hbl, hml⟩ := hrl.addUnless_ok h.lower hl hi (la.at_ i).isInfinite
    (if (ua.at_ i).isInfinite then dout i
      else dout i * (1 - il i) - 1 / ((ua.at_ i).num - (la.at_ i).num) * lp)
    (r.2.2 + share xAdj i (rawTerm (dout i) lp (la.at_ i) (ua.at_ i) (x i)))
  obtain ⟨bu, mu, haddu, hbu, hmu⟩ := hru.addUnless_ok h.upper hu hi (ua.at_ i).isInfinite
    (if (la.at_ i).isInfinite then dout i
      else dout i * il i + 1 / ((ua.at_ i).num - (la.at_ i).num) * lp) ml
  refine ⟨(bl, bu, mu), ?_, hbl, hbu, ?_⟩
  · unfold cluBwdInfElement
    rw [Bound.get_ok h.lower hi, ok_bind, Bound.get_ok h.upper hi, ok_bind]
    dsimp only
    rw [addTo_ok hx hi, ok_bind]
    rw [rawTerm_code hF, ← hil] at haddl
    rw [haddl, ok_bind, haddu, ok_bind]
    rfl
  · rw [lowerTerm_code, upperTerm_code, ← hil]
    linear_combination hml + hmu

lemma cluBwdInf_ok (hF : F.Lawful) (h : Paired n la ua) (hx : Fits n xAdj) (hl : Fits la.len lbAdj)
    (hu : Fits ua.len ubAdj) (hil : ∀ i < n, il i = sigmoid (x i)) (dout : ℕ → ℝ) (lp : ℝ)
    (m : ℕ → ℝ) : cluBwdInf F n x la ua xAdj lbAdj ubAdj il dout lp m =
      .ok (m + boundedShares n x la ua xAdj lbAdj ubAdj dout lp) := by
  obtain ⟨r, hrun, hrl, hru, hidle, hmem⟩ := foldlM_range_ok
    (f := cluBwdInfElement F x (Bound.ofDesc la) (Bound.ofDesc ua) xAdj il dout lp) (n := n)
    (s := (BoundAdj.ofDesc la lbAdj, BoundAdj.ofDesc ua ubAdj, m))
    (fun k r => r.1.Serves la lbAdj ∧ r.2.1.Serves ua ubAdj ∧
      (k = 0 → r.1.touched = false ∧ r.2.1.touched = false) ∧
      r.2.2 + r.1.pending + r.2.1.pending = m + boundedShares k x la ua xAdj lbAdj ubAdj dout lp)
    (by
      rintro k hk r ⟨hrl, hru, -, hmem⟩
      obtain ⟨r', hrun, hrl', hru', hmem'⟩ :=
        cluBwdInfElement_ok hF h hx hl hu hk (hil k hk) dout lp hrl hru
      refine ⟨r', hrun, hrl', hru', fun hz => absurd hz (Nat.succ_ne_zero k), ?_⟩
      rw [hmem', hmem]
      unfold boundedShares
      rw [sum_range_succ, sum_range_succ, sum_range_succ]
      ring)
    (by
      refine ⟨BoundAdj.serves_ofDesc la lbAdj, BoundAdj.serves_ofDesc ua ubAdj, fun _ => ⟨rfl, rfl⟩, ?_⟩
      rw [BoundAdj.pending_ofDesc, BoundAdj.pending_ofDesc, boundedShares, sum_range_zero,
        sum_range_zero, sum_range_zero]
      simp only [add_zero])
  -- without elements the lanes are untouched, and with elements both bounds have a value
  have hlen : ∀ a : Desc (Extended ℝ), Shaped n a → n ≠ 0 → a.len ≠ 0 := by
    rintro a (ha | ha) hn
    · omega
    · omega
  have hnel : r.1.touched = true → la.len ≠ 0 := fun ht => hlen la h.lower fun hn => by
    rw [(hidle hn).1] at ht
    exact Bool.noConfusion ht
  have hneu : r.2.1.touched = true → ua.len ≠ 0 := fun ht => hlen ua h.upper fun hn => by
    rw [(hidle hn).2] at ht
    exact Bool.noConfusion ht
  unfold cluBwdInf
  dsimp only
  rw [hrun, ok_bind, hrl.commit_ok hnel hl, ok_bind, hru.commit_ok hneu hu, hmem]

/-- The term of a bound where neither is infinite. -/
noncomputable def boundTerm (isLb : Bool) (s lp il diff : ℝ) : ℝ :=
  s * (if isLb then 1 - il else il) + if isLb then -(1 / diff * lp) else 1 / diff * lp

/-- The loop over one bound adds every element's term to the value the element reads. -/
lemma cluBoundBwd_ok (isLb : Bool) (h : Paired n la ua) {arg : Desc (Extended ℝ)}
    {adj : Option AdjDesc} (hs : Shaped n arg) (hne : arg.len ≠ 0) (ha : Fits arg.len adj)
    (dout : ℕ → ℝ) (lp : ℝ) (m : ℕ → ℝ) :
    cluBoundBwd isLb n (Bound.ofDesc la) (Bound.ofDesc ua) (Bound.ofDesc arg) adj il dout lp m =
      .ok (m + ∑ i ∈ range n, share adj (arg.slot i)
        (boundTerm isLb (dout i) lp (il i) ((ua.at_ i).num - (la.at_ i).num))) := by
  unfold cluBoundBwd
  cases adj with
  | none =>
    simp only [share, sum_const_zero, add_zero]
    rfl
  | some a =>
    unfold whenPresent
    dsimp only
    set t := fun i => boundTerm isLb (dout i) lp (il i) ((ua.at_ i).num - (la.at_ i).num) with ht
    cases hv : (Bound.ofDesc arg).varies with
    | true =>
      have hstep : ∀ i < n, ∀ r : ℝ × (ℕ → ℝ), (do
          let l ← (Bound.ofDesc la).get i
          let u ← (Bound.ofDesc ua).get i
          if true = true then do
            let m ← a.add i (dout i * (if isLb then 1 - il i else il i) +
              if isLb then -(1 / (u.num - l.num) * lp) else 1 / (u.num - l.num) * lp) r.2
            return (r.1, m)
          else return (r.1 + (dout i * (if isLb then 1 - il i else il i) +
            if isLb then -(1 / (u.num - l.num) * lp) else 1 / (u.num - l.num) * lp), r.2) :
              Except Failure (ℝ × (ℕ → ℝ))) = .ok (r + (0, share (some a) (arg.slot i) (t i))) := by
        intro i hi r
        have hlt : i < a.len := by
          rw [ha a rfl, hs.len_of_varies hv]
          exact hi
        rw [Bound.get_ok h.lower hi, ok_bind, Bound.get_ok h.upper hi, ok_bind, if_pos rfl,
          AdjDesc.add_ok hlt, ok_bind, hs.slot_of_varies hv hi]
        refine congrArg Except.ok (Prod.ext ?_ rfl)
        exact (add_zero r.1).symm
      rw [foldlM_range_add n hstep, ok_bind, if_pos rfl, Prod.snd_add, Prod.snd_sum]
      rfl
    | false =>
      have hstep : ∀ i < n, ∀ r : ℝ × (ℕ → ℝ), (do
          let l ← (Bound.ofDesc la).get i
          let u ← (Bound.ofDesc ua).get i
          if false = true then do
            let m ← a.add i (dout i * (if isLb then 1 - il i else il i) +
              if isLb then -(1 / (u.num - l.num) * lp) else 1 / (u.num - l.num) * lp) r.2
            return (r.1, m)
          else return (r.1 + (dout i * (if isLb then 1 - il i else il i) +
            if isLb then -(1 / (u.num - l.num) * lp) else 1 / (u.num - l.num) * lp), r.2) :
              Except Failure (ℝ × (ℕ → ℝ))) = .ok (r + (t i, 0)) := by
        intro i hi r
        rw [Bound.get_ok h.lower hi, ok_bind, Bound.get_ok h.upper hi, ok_bind,
          if_neg Bool.false_ne_true]
        refine congrArg Except.ok (Prod.ext rfl ?_)
        exact (add_zero r.2).symm
      rw [foldlM_range_add n hstep, ok_bind, if_neg Bool.false_ne_true,
        AdjDesc.add_ok (by rw [ha a rfl]; omega), Prod.snd_add, Prod.fst_add, Prod.snd_sum,
        Prod.fst_sum, sum_const_zero, add_zero, zero_add, share_sum]
      congr 2
      refine sum_congr rfl fun i hi => ?_
      rw [hs.slot_of_shared hv (mem_range.1 hi)]

/-- The backward with two bounds. -/
theorem cluBwd_ok (hF : F.Lawful) (h : Paired n la ua) (hr : Readable la ua) (hx : Fits n xAdj)
    (hl : Fits la.len lbAdj) (hu : Fits ua.len ubAdj) (hil : ∀ i < n, il i = sigmoid (x i))
    (dout : ℕ → ℝ) (lp : ℝ) (m : ℕ → ℝ) : cluBwd F n x la ua xAdj lbAdj ubAdj il dout lp m =
      .ok (m + boundedShares n x la ua xAdj lbAdj ubAdj dout lp) := by
  unfold cluBwd
  dsimp only
  rw [h.inf_ok hr, ok_bind]
  cases hpath : someInfinite la n || someInfinite ua n with
  | true => exact cluBwdInf_ok hF h hx hl hu hil dout lp m
  | false =>
    obtain ⟨hune, hfin⟩ := h.finite_of_inf hr hpath
    have hraw : ∀ i < n, ∀ m : ℕ → ℝ, (do
        let l ← (Bound.ofDesc la).get i
        let u ← (Bound.ofDesc ua).get i
        addTo xAdj i (dout i * (if (Bound.ofDesc la).varies || (Bound.ofDesc ua).varies then
          u.num - l.num else (ua.data 0).num - (la.data 0).num) * il i * (1 - il i) +
            lp * (1 - 2 * il i)) m : Except Failure (ℕ → ℝ)) =
          .ok (m + share xAdj i (rawTerm (dout i) lp (la.at_ i) (ua.at_ i) (x i))) := by
      intro i hi m
      rw [Bound.get_ok h.lower hi, ok_bind, Bound.get_ok h.upper hi, ok_bind, addTo_ok hx hi,
        h.diff_eq hi, rawTerm_code hF, (hfin i hi).1, (hfin i hi).2, ← hil i hi]
      rfl
    have hlower : ∀ i < n, boundTerm true (dout i) lp (il i) ((ua.at_ i).num - (la.at_ i).num) =
        lowerTerm (dout i) lp (la.at_ i) (ua.at_ i) (x i) := by
      intro i hi
      rw [lowerTerm_code, (hfin i hi).1, (hfin i hi).2, ← hil i hi]
      exact (sub_eq_add_neg _ _).symm
    have hupper : ∀ i < n, boundTerm false (dout i) lp (il i) ((ua.at_ i).num - (la.at_ i).num) =
        upperTerm (dout i) lp (la.at_ i) (ua.at_ i) (x i) := by
      intro i hi
      rw [upperTerm_code, (hfin i hi).1, (hfin i hi).2, ← hil i hi]
      rfl
    rw [if_neg Bool.false_ne_true, Bound.get_zero hune, ok_bind, Bound.get_zero hr.lower, ok_bind,
      foldlM_range_add n hraw, ok_bind, boundedShares]
    cases hv : (Bound.ofDesc la).varies || (Bound.ofDesc ua).varies with
    | true =>
      rw [if_neg (by simp), cluBoundBwd_ok true h h.lower hr.lower hl, ok_bind,
        cluBoundBwd_ok false h h.upper hune hu, ← add_assoc, ← add_assoc]
      refine congrArg Except.ok ?_
      congr 1
      · congr 1
        exact sum_congr rfl fun i hi => by rw [hlower i (mem_range.1 hi)]
      · exact sum_congr rfl fun i hi => by rw [hupper i (mem_range.1 hi)]
    | false =>
      obtain ⟨hvl, hvu⟩ := Bool.or_eq_false_iff.1 hv
      -- the shares of the Jacobian are equal, and are folded into one product
      have hfold : ∀ (w : ℕ → ℝ) (c : ℝ), seqSum w n + c * lp * n = ∑ i ∈ range n, (w i + c * lp) := by
        intro w c
        rw [seqSum_eq, sum_add_distrib, sum_const, card_range, nsmul_eq_mul]
        ring
      have hdiff : ∀ i < n, (ua.at_ i).num - (la.at_ i).num = (ua.data 0).num - (la.data 0).num := by
        intro i hi
        rw [h.lower.at_eq hvl hi, h.upper.at_eq hvu hi]
      rw [if_pos rfl, addTo_ok hl (Nat.pos_of_ne_zero hr.lower), ok_bind, addTo_ok hu (Nat.pos_of_ne_zero hune),
        hfold, hfold, share_sum, share_sum, ← add_assoc, ← add_assoc]
      refine congrArg Except.ok ?_
      congr 1
      · congr 1
        refine sum_congr rfl fun i hi => ?_
        have hi := mem_range.1 hi
        rw [h.lower.slot_of_shared hvl hi, ← hlower i hi, hdiff i hi]
        congr 1
        simp only [boundTerm, if_true]
        ring
      · refine sum_congr rfl fun i hi => ?_
        have hi := mem_range.1 hi
        rw [h.upper.slot_of_shared hvu hi, ← hupper i hi, hdiff i hi]
        rfl

end Stanli.Constrain
