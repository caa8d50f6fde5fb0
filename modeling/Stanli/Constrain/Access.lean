import Mathlib.Algebra.BigOperators.Pi
import Mathlib.Algebra.BigOperators.Group.Finset.Sigma
import Mathlib.Algebra.Group.Pi.Lemmas
import Stanli.Constrain.Elementwise

/-!
# Reading arguments and adding to adjoints

An argument with one shared value or with one value per element is read without leaving its buffer, as
soon as it has a value (`Bound.get_ok`), and an empty one is never read (`Bound.get_empty`).  A loop that
adds to adjoints adds a sum of shares (`share`), which is what each cell of the buffer receives
(`sum_share_eq_spread`).
-/

namespace Stanli.Constrain

open Finset Function
open Collapse (Desc)

variable {α R : Type} {n i len : ℕ}

/-! ## Arguments -/

/-- An argument with one shared value, or with one value per element. -/
def Shaped (n : ℕ) (a : Desc α) : Prop := a.len = 1 ∨ a.len = n

lemma read_ok {a : Desc α} (h : i < a.len) : read a i = .ok (a.data i) := if_pos h

lemma read_empty {a : Desc α} (h : a.len = 0) (i : ℕ) : read a i = .error .outOfBounds :=
  if_neg (by omega)

namespace Bound

lemma varies_ofDesc (a : Desc α) : (ofDesc a).varies = decide (1 < a.len) := by
  unfold varies ofDesc
  by_cases h : 1 < a.len
  · rw [if_pos h, decide_eq_true h]
    rfl
  · rw [if_neg h, decide_eq_false h]
    rfl

/-- The cell that is read for an element. -/
lemma get_eq (a : Desc α) (i : ℕ) : (ofDesc a).get i = read a (if 1 < a.len then i else 0) := by
  unfold get ofDesc
  dsimp only
  split
  · rw [Nat.mul_one]
  · rw [Nat.mul_zero]

lemma slot_eq {a : Desc α} (hs : Shaped n a) (hi : i < n) :
    (if 1 < a.len then i else 0) = a.slot i := by
  unfold Desc.slot
  obtain h | h := hs
  · rw [if_neg (by omega), if_pos h]
  · split <;> split <;> omega

lemma get_ok {a : Desc α} (hs : Shaped n a) (hi : i < n) : (ofDesc a).get i = .ok (a.at_ i) := by
  have hlt : a.slot i < a.len := by
    unfold Desc.slot
    obtain h | h := hs <;> split <;> omega
  rw [get_eq, slot_eq hs hi, read_ok hlt]
  rfl

lemma get_zero {a : Desc α} (hne : a.len ≠ 0) : (ofDesc a).get 0 = .ok (a.data 0) := by
  rw [get_eq, ite_self, read_ok (Nat.pos_of_ne_zero hne)]

lemma get_empty {a : Desc α} (h : a.len = 0) (i : ℕ) : (ofDesc a).get i = .error .outOfBounds := by
  rw [get_eq, read_empty h]

end Bound

lemma Shaped.slot_lt {a : Desc α} (hs : Shaped n a) (hi : i < n) : a.slot i < a.len := by
  unfold Desc.slot
  obtain h | h := hs <;> split <;> omega

lemma Shaped.slot_of_varies {a : Desc α} (hs : Shaped n a) (hv : (Bound.ofDesc a).varies = true)
    (hi : i < n) : a.slot i = i := by
  rw [Bound.varies_ofDesc, decide_eq_true_eq] at hv
  rw [← Bound.slot_eq hs hi, if_pos hv]

lemma Shaped.slot_of_shared {a : Desc α} (hs : Shaped n a) (hv : (Bound.ofDesc a).varies = false)
    (hi : i < n) : a.slot i = 0 := by
  rw [Bound.varies_ofDesc, decide_eq_false_iff_not] at hv
  rw [← Bound.slot_eq hs hi, if_neg hv]

/-- A shared value is that of every element. -/
lemma Shaped.at_eq {a : Desc α} (hs : Shaped n a) (hv : (Bound.ofDesc a).varies = false) (hi : i < n) :
    a.at_ i = a.data 0 := by
  rw [Desc.at_, hs.slot_of_shared hv hi]

lemma Shaped.at_of_varies {a : Desc α} (hv : (Bound.ofDesc a).varies = true) (i : ℕ) :
    a.at_ i = a.data i := by
  rw [Bound.varies_ofDesc, decide_eq_true_eq] at hv
  rw [Desc.at_, Desc.slot, if_neg (by omega)]

lemma Shaped.len_of_varies {a : Desc α} (hs : Shaped n a) (hv : (Bound.ofDesc a).varies = true) :
    a.len = n := by
  rw [Bound.varies_ofDesc, decide_eq_true_eq] at hv
  obtain h | h := hs
  · omega
  · exact h

/-- What `has_inf` finds. -/
def someInfinite (a : Desc (Extended R)) (n : ℕ) : Bool :=
  if (Bound.ofDesc a).varies then (List.range n).any fun i => (a.data i).isInfinite
  else (a.data 0).isInfinite

lemma hasInf_ok {a : Desc (Extended R)} (hs : Shaped n a) (hne : a.len ≠ 0) :
    hasInf (Bound.ofDesc a) n = .ok (someInfinite a n) := by
  unfold hasInf someInfinite
  cases hv : (Bound.ofDesc a).varies with
  | false =>
    rw [if_pos rfl, Bound.get_zero hne]
    rfl
  | true =>
    rw [if_neg (by simp), if_pos rfl]
    refine anyM_range_ok fun i hi => ?_
    rw [show (Bound.ofDesc a).p = a from rfl, read_ok (hs.len_of_varies hv ▸ hi)]
    rfl

lemma hasInf_empty {a : Desc (Extended R)} (h : a.len = 0) (n : ℕ) :
    hasInf (Bound.ofDesc a) n = .error .outOfBounds := by
  have hv : (Bound.ofDesc a).varies = false := by
    rw [Bound.varies_ofDesc, decide_eq_false_iff_not]
    omega
  rw [hasInf, if_pos hv, Bound.get_empty h]
  rfl

/-- Where nothing infinite is found, every element's value is finite. -/
lemma finite_of_someInfinite {a : Desc (Extended R)} (hs : Shaped n a)
    (h : someInfinite a n = false) (hi : i < n) : (a.at_ i).isInfinite = false := by
  unfold someInfinite at h
  cases hv : (Bound.ofDesc a).varies with
  | false =>
    rw [hv, if_neg Bool.false_ne_true] at h
    rw [hs.at_eq hv hi, h]
  | true =>
    rw [hv, if_pos rfl, List.any_eq_false] at h
    rw [Shaped.at_of_varies hv]
    exact Bool.eq_false_iff.2 (h i (List.mem_range.2 hi))

/-- Where a shared value is infinite, so is that of every element. -/
lemma infinite_of_someInfinite {a : Desc (Extended R)} (hs : Shaped n a)
    (hv : (Bound.ofDesc a).varies = false) (h : someInfinite a n = true) (hi : i < n) :
    (a.at_ i).isInfinite = true := by
  rw [someInfinite, hv, if_neg Bool.false_ne_true] at h
  rw [hs.at_eq hv hi, h]

/-! ## Adjoints -/

section Adjoints

variable [Field R]

/-- What an amount added to one cell of an adjoint adds to the memory. -/
def share (a : Option AdjDesc) (i : ℕ) (v : R) : ℕ → R :=
  match a with
  | none => 0
  | some a => Pi.single (a.base + i) v

/-- What amounts added to all cells of an adjoint add to the memory. -/
def spread (a : Option AdjDesc) (g : ℕ → R) : ℕ → R :=
  match a with
  | none => 0
  | some a => ∑ j ∈ range a.len, Pi.single (a.base + j) (g j)

/-- An adjoint, where there is one, is as long as its value. -/
def Fits (len : ℕ) (a : Option AdjDesc) : Prop := ∀ d, a = some d → d.len = len

@[simp] lemma share_zero (a : Option AdjDesc) (i : ℕ) : share a i (0 : R) = 0 := by
  cases a with
  | none => rfl
  | some a => exact Pi.single_zero _

lemma share_add (a : Option AdjDesc) (i : ℕ) (v w : R) :
    share a i (v + w) = share a i v + share a i w := by
  cases a with
  | none => exact (add_zero _).symm
  | some a => exact Pi.single_add (f := fun _ => R) (a.base + i) v w

lemma share_sum (a : Option AdjDesc) (i n : ℕ) (v : ℕ → R) :
    share a i (∑ j ∈ range n, v j) = ∑ j ∈ range n, share a i (v j) := by
  induction n with
  | zero => exact share_zero a i
  | succ n ih => rw [sum_range_succ, sum_range_succ, share_add, ih]

lemma update_add_eq (m : ℕ → R) (c : ℕ) (v : R) : update m c (m c + v) = m + Pi.single c v := by
  funext d
  rw [Pi.add_apply]
  obtain rfl | hne := eq_or_ne d c
  · rw [update_self, Pi.single_eq_same]
  · rw [update_of_ne hne, Pi.single_eq_of_ne hne, add_zero]

lemma AdjDesc.add_ok {a : AdjDesc} (h : i < a.len) (v : R) (m : ℕ → R) :
    a.add i v m = .ok (m + share (some a) i v) := by
  rw [AdjDesc.add, if_pos h, update_add_eq]
  rfl

lemma AdjDesc.add_empty {a : AdjDesc} (h : a.len = 0) (i : ℕ) (v : R) (m : ℕ → R) :
    a.add i v m = .error .outOfBounds := if_neg (by omega)

lemma addTo_ok {a : Option AdjDesc} (ha : Fits len a) (hi : i < len) (v : R) (m : ℕ → R) :
    addTo a i v m = .ok (m + share a i v) := by
  cases a with
  | none =>
    rw [share, add_zero]
    rfl
  | some d => exact AdjDesc.add_ok (ha d rfl ▸ hi) v m

/-- The shares of the elements, collected in the cells that they read. -/
theorem sum_share_eq_spread {a : Option AdjDesc} (ha : Fits len a) {slot : ℕ → ℕ}
    (hslot : ∀ i < n, slot i < len) (v : ℕ → R) :
    ∑ i ∈ range n, share a (slot i) (v i) =
      spread a fun j => ∑ i ∈ range n, if slot i = j then v i else 0 := by
  cases a with
  | none => exact sum_const_zero
  | some d =>
    change _ = ∑ j ∈ range d.len, _
    rw [ha d rfl]
    calc ∑ i ∈ range n, share (some d) (slot i) (v i)
        = ∑ i ∈ range n, ∑ j ∈ range len, if slot i = j then share (some d) j (v i) else 0 := by
          refine sum_congr rfl fun i hi => ?_
          rw [sum_ite_eq, if_pos (mem_range.2 (hslot i (mem_range.1 hi)))]
      _ = ∑ j ∈ range len, ∑ i ∈ range n, if slot i = j then share (some d) j (v i) else 0 := sum_comm
      _ = ∑ j ∈ range len, Pi.single (d.base + j) (∑ i ∈ range n, if slot i = j then v i else 0) := by
          refine sum_congr rfl fun j _ => ?_
          change _ = share (some d) j _
          rw [share_sum]
          refine sum_congr rfl fun i _ => ?_
          split
          · rfl
          · exact (share_zero _ _).symm

lemma seqSum_eq (p : ℕ → R) (n : ℕ) : seqSum p n = ∑ i ∈ range n, p i := by
  unfold seqSum
  induction n with
  | zero => rfl
  | succ n ih => rw [List.range_succ, List.foldl_append, ih, sum_range_succ, List.foldl_cons, List.foldl_nil]

/-- `add_bound_adj` adds every element's term to the value the element reads. -/
lemma addBoundAdj_ok {arg : Desc (Extended R)} {adj : Option AdjDesc} (hs : Shaped n arg)
    (hne : arg.len ≠ 0) (ha : Fits arg.len adj) (terms : ℕ → R) (m : ℕ → R) :
    addBoundAdj arg adj terms n m = .ok (m + ∑ i ∈ range n, share adj (arg.slot i) (terms i)) := by
  unfold addBoundAdj whenPresent
  cases adj with
  | none => simp [share]
  | some a =>
    dsimp only
    cases hv : (Bound.ofDesc arg).varies with
    | false =>
      rw [if_neg Bool.false_ne_true, seqSum_eq, AdjDesc.add_ok (by rw [ha a rfl]; omega), share_sum]
      congr 2
      exact sum_congr rfl fun i hi => by rw [hs.slot_of_shared hv (mem_range.1 hi)]
    | true =>
      have hlen := hs.len_of_varies hv
      have hadd : ∀ i < n, ∀ m, a.add i (terms i) m = .ok (m + share (some a) i (terms i)) :=
        fun i hi m => AdjDesc.add_ok (by rw [ha a rfl]; omega) (terms i) m
      rw [if_pos rfl, foldlM_range_add n hadd]
      congr 2
      exact sum_congr rfl fun i hi => by rw [hs.slot_of_varies hv (mem_range.1 hi)]

/-! ## The lanes of a bound -/

namespace BoundAdj

variable {b : BoundAdj R} {arg : Desc (Extended R)} {adj : Option AdjDesc}

/-- What a shared lane has collected and not yet added. -/
def pending (b : BoundAdj R) : ℕ → R := if b.varies then 0 else share b.p 0 b.lane

/-- A lane that serves this argument: one that was not touched has collected nothing. -/
structure Serves (b : BoundAdj R) (arg : Desc (Extended R)) (adj : Option AdjDesc) : Prop where
  p : b.p = adj
  varies : b.varies = (Bound.ofDesc arg).varies
  idle : b.touched = false → b.lane = 0

lemma serves_ofDesc (arg : Desc (Extended R)) (adj : Option AdjDesc) :
    (ofDesc arg adj : BoundAdj R).Serves arg adj := ⟨rfl, rfl, fun _ => rfl⟩

lemma pending_ofDesc (arg : Desc (Extended R)) (adj : Option AdjDesc) :
    (ofDesc arg adj : BoundAdj R).pending = 0 := by
  unfold pending ofDesc
  dsimp only
  split
  · rfl
  · exact share_zero adj 0

/-- Adding a term adds it to the memory at once, or to what is pending. -/
lemma Serves.add_ok (h : b.Serves arg adj) (hs : Shaped n arg) (ha : Fits arg.len adj) (hi : i < n) (v : R)
    (m : ℕ → R) : ∃ b' m', b.add i v m = .ok (b', m') ∧ b'.Serves arg adj ∧
      m' + b'.pending = m + b.pending + share adj (arg.slot i) v := by
  unfold add
  rw [h.p]
  cases adj with
  | none => exact ⟨b, m, rfl, h, (add_zero _).symm⟩
  | some a =>
    dsimp only
    cases hv : b.varies with
    | false =>
      rw [if_neg Bool.false_ne_true]
      refine ⟨_, _, rfl, ⟨rfl, hv.symm.trans h.varies, fun ht => Bool.noConfusion ht⟩, ?_⟩
      have hvar : (Bound.ofDesc arg).varies = false := by rw [← h.varies, hv]
      have hslot := hs.slot_of_shared hvar hi
      simp only [pending, hv, h.p, hslot, Bool.false_eq_true, if_false]
      rw [share_add, add_assoc]
    | true =>
      have hvar : (Bound.ofDesc arg).varies = true := by rw [← h.varies, hv]
      have hlen := hs.len_of_varies hvar
      have hslot := hs.slot_of_varies hvar hi
      rw [if_pos rfl, AdjDesc.add_ok (by rw [ha a rfl]; omega)]
      refine ⟨_, _, rfl, ⟨rfl, hv.symm.trans h.varies, fun ht => Bool.noConfusion ht⟩, ?_⟩
      simp only [pending, hv, if_true, hslot, add_zero]

/-- A term that is skipped is no term. -/
lemma Serves.addUnless_ok (h : b.Serves arg adj) (hs : Shaped n arg) (ha : Fits arg.len adj) (hi : i < n)
    (skip : Bool) (v : R) (m : ℕ → R) : ∃ b' m', b.addUnless skip i v m = .ok (b', m') ∧
      b'.Serves arg adj ∧
      m' + b'.pending = m + b.pending + share adj (arg.slot i) (if skip then 0 else v) := by
  cases skip with
  | true =>
    refine ⟨b, m, rfl, h, ?_⟩
    rw [if_pos rfl, share_zero, add_zero]
  | false => exact h.add_ok hs ha hi v m

/-- Committing adds what is pending. -/
lemma Serves.commit_ok (h : b.Serves arg adj) (hne : b.touched = true → arg.len ≠ 0) (ha : Fits arg.len adj)
    (m : ℕ → R) : b.commit m = .ok (m + b.pending) := by
  unfold commit pending
  rw [h.p]
  cases adj with
  | none =>
    simp [share]
  | some a =>
    dsimp only
    cases hv : b.varies with
    | true => simp
    | false =>
      cases ht : b.touched with
      | false => simp [h.idle ht]
      | true =>
        have hlen := hne ht
        rw [if_pos ⟨rfl, rfl⟩, if_neg Bool.false_ne_true, AdjDesc.add_ok (by rw [ha a rfl]; omega)]

end BoundAdj

end Adjoints

end Stanli.Constrain
