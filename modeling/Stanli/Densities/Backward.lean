import Mathlib.Algebra.BigOperators.Ring.Finset
import Stanli.Densities.Fused
import Stanli.Executor.MicroKernels

/-!
# The backward of a density

`density_bwd`, `density_micro` and `density_scratch` of `densities_impl.hpp`.  The backward reads the
partials that a forward left in its scratch and adds them, scaled, to the adjoints of the active
arguments.  What it adds is a sum over the observations in either form (`densityBwd_mem`), and the micro
form adds the same (`densityMicro_mem`).
-/

namespace Stanli

open Finset Densities

variable {U V X : Type*}

/-- `in[k].len`. -/
def KernelCtx.inLen (c : KernelCtx U) (k : ℕ) : ℕ := (c.ins.getD k (.null, 0)).2

namespace Densities

/-! ## The kernels -/

section Kernels

variable [Add V] [Mul V] [Zero V] [DecidableEq V]

/-- An argument whose adjoint the backward adds to. -/
def wanted (nArgs : ℕ) (c : KernelCtx U) (k : ℕ) : Bool :=
  (activityMask nArgs c.variant).testBit k && decide ((c.adj k).1 ≠ .null)

/-- `density_bwd` for one argument of the elementwise form.  A shared argument sums its column. -/
def elementArgBwd (nArgs : ℕ) (c : KernelCtx U) (st : RevState V X) (k : ℕ) : RevState V X :=
  let N := c.out.2
  let connected := fun (st : RevState V X) n => st.mem (c.scratch.add (nArgs * N + n))
  let partial_ := fun (st : RevState V X) n =>
    st.mem (c.outAdj.1.add n) * st.mem (c.scratch.add (k * N + n))
  if wanted nArgs c k = false then st
  else if (c.adj k).2 = 1 ∧ 1 < N then
    st.add (c.adj k).1 ((List.range N).reverse.foldl
      (fun acc n => if connected st n ≠ 0 then acc + partial_ st n else acc) 0)
  else
    (List.range N).foldl
      (fun st n => if connected st n ≠ 0 then st.add ((c.adj k).1.add n) (partial_ st n) else st) st

/-- `density_bwd` for one argument of the summed form. -/
def summedArgBwd (nArgs : ℕ) (c : KernelCtx U) (outAdj : V) (st : RevState V X) (k : ℕ) :
    RevState V X :=
  let off := argOffset c.inLen k
  if wanted nArgs c k = false then st
  else if c.inLen k = 1 then st.add (c.adj k).1 (outAdj * st.mem (c.scratch.add off))
  else
    (List.range (c.inLen k)).foldl
      (fun st j => st.add ((c.adj k).1.add j) (outAdj * st.mem (c.scratch.add (off + j)))) st

/-- `density_bwd`. -/
def densityBwd (nArgs : ℕ) : BackwardFn U V X := fun c outAdj _ st =>
  if c.variant.testBit 6 then (List.range nArgs).foldl (elementArgBwd nArgs c) st
  else if st.mem (c.scratch.add (argOffset c.inLen nArgs)) = 0 then st
  else (List.range nArgs).foldl (summedArgBwd nArgs c outAdj) st

/-- The micro-op of one argument. -/
def argMicro (nArgs : ℕ) (c : KernelCtx U) (k : ℕ) : List (BwdMicro V) :=
  if wanted nArgs c k then
    [{ dst := (c.adj k).1, seed := c.outAdj.1, a := c.scratch.add (argOffset c.inLen k),
       b := c.scratch.add (argOffset c.inLen nArgs), kind := .scaled }]
  else []

/-- `density_micro`. -/
def densityMicro (nArgs : ℕ) : CachedMicroFn U V := fun c =>
  if c.variant.testBit 6 ∨ c.out.2 ≠ 1 then (false, [])
  else if (List.range nArgs).any fun k => wanted nArgs c k && decide (c.inLen k ≠ 1) then (false, [])
  else (true, (List.range nArgs).flatMap (argMicro nArgs c))

/-- `density_scratch`, for arguments of the given lengths and the length of the output. -/
def densityScratch (nArgs variant : ℕ) (len : ℕ → ℕ) (outLen : ℕ) : ℕ :=
  if variant.testBit 6 then (nArgs + 1) * outLen else argOffset len nArgs + 1

end Kernels

/-! ## Loops that add to adjoints -/

section Loops

variable [AddCommMonoid V] {st st₀ : RevState V X} {fixed : Ptr → Prop}

/-- Two states with the same contents of some cells. -/
def Agree (fixed : Ptr → Prop) (st st₀ : RevState V X) : Prop := ∀ p, fixed p → st.mem p = st₀.mem p

lemma mem_add (dst : Ptr) (x : V) (p : Ptr) :
    (st.add dst x).mem p = st.mem p + if dst = p then x else 0 := by
  rw [RevState.add]
  dsimp only
  by_cases h : dst = p
  · rw [if_pos h, h, Function.update_self]
  · rw [if_neg h, add_zero, Function.update_of_ne (Ne.symm h)]

/-- A loop whose steps add what the fixed cells determine, to other cells, adds the sum. -/
lemma mem_foldl_range {f : RevState V X → ℕ → RevState V X} {amount : ℕ → Ptr → V} (n : ℕ)
    (hstep : ∀ i < n, ∀ st, Agree fixed st st₀ → ∀ p, (f st i).mem p = st.mem p + amount i p)
    (hfixed : ∀ i < n, ∀ p, fixed p → amount i p = 0) (hst : Agree fixed st st₀) :
    (∀ p, ((List.range n).foldl f st).mem p = st.mem p + ∑ i ∈ range n, amount i p) ∧
      Agree fixed ((List.range n).foldl f st) st₀ := by
  induction n with
  | zero => exact ⟨fun p => (add_zero _).symm, hst⟩
  | succ n ih =>
    obtain ⟨hmem, hagree⟩ := ih (fun i hi => hstep i (Nat.lt_succ_of_lt hi))
      fun i hi => hfixed i (Nat.lt_succ_of_lt hi)
    rw [List.range_succ, List.foldl_append, List.foldl_cons, List.foldl_nil]
    have hlast := hstep n (Nat.lt_succ_self n) _ hagree
    refine ⟨fun p => ?_, fun p hp => ?_⟩
    · rw [hlast, hmem, sum_range_succ, add_assoc]
    · rw [hlast, hfixed n (Nat.lt_succ_self n) p hp, add_zero]
      exact hagree p hp

/-- The running sum of a loop that skips some of its terms. -/
lemma foldl_acc_eq_sum (n : ℕ) (keep : ℕ → Prop) [DecidablePred keep] (w : ℕ → V) :
    (List.range n).reverse.foldl (fun acc i => if keep i then acc + w i else acc) 0 =
      ∑ i ∈ range n, if keep i then w i else 0 := by
  rw [List.foldl_reverse]
  have hgen : ∀ x : V, (List.range n).foldr (fun i acc => if keep i then acc + w i else acc) x =
      (∑ i ∈ range n, if keep i then w i else 0) + x := by
    induction n with
    | zero => exact fun x => (zero_add x).symm
    | succ n ih =>
      intro x
      rw [List.range_succ, List.foldr_append, ih, sum_range_succ, List.foldr_cons, List.foldr_nil]
      split
      · rw [add_comm x, add_assoc]
      · rw [add_zero]
  rw [hgen, add_zero]

end Loops

/-! ## What the backward adds -/

/-- The buffers of a call: adjoints are as long as their values, there is a scratch, and the adjoint of
an argument is not part of it nor of the adjoint of the output. -/
structure Bound (nArgs : ℕ) (c : KernelCtx U) : Prop where
  scratch : c.scratch ≠ .null
  seedLen : c.outAdj.2 = c.out.2
  adjLen : ∀ k < nArgs, (c.adj k).2 = c.inLen k
  scratchApart : ∀ k < nArgs, (c.adj k).1 ≠ .null → ∀ i j, (c.adj k).1.add i ≠ c.scratch.add j
  seedApart : ∀ k < nArgs, (c.adj k).1 ≠ .null → ∀ i < c.inLen k, ∀ n < c.out.2,
    (c.adj k).1.add i ≠ c.outAdj.1.add n

section Sound

variable [Semiring V] [DecidableEq V] {nArgs k : ℕ} {c : KernelCtx U} {st st₀ : RevState V X}

/-- The cells that a backward reads. -/
def readCells (c : KernelCtx U) (p : Ptr) : Prop :=
  (∃ j, p = c.scratch.add j) ∨ ∃ n < c.out.2, p = c.outAdj.1.add n

/-- What the summed form adds to a cell for one argument. -/
def summedAmount (nArgs : ℕ) (c : KernelCtx U) (st : RevState V X) (outAdj : V) (k : ℕ) (p : Ptr) : V :=
  if wanted nArgs c k then
    ∑ j ∈ range (c.inLen k),
      if (c.adj k).1.add j = p then outAdj * st.mem (c.scratch.add (argOffset c.inLen k + j)) else 0
  else 0

/-- The place in an argument that an observation reads. -/
def KernelCtx.slot (c : KernelCtx U) (k n : ℕ) : ℕ := if c.inLen k = 1 then 0 else n

/-- What the elementwise form adds to a cell for one argument. -/
def elementAmount (nArgs : ℕ) (c : KernelCtx U) (st : RevState V X) (k : ℕ) (p : Ptr) : V :=
  if wanted nArgs c k then
    ∑ n ∈ range c.out.2,
      if (c.adj k).1.add (KernelCtx.slot c k n) = p then
        if st.mem (c.scratch.add (nArgs * c.out.2 + n)) ≠ 0 then
          st.mem (c.outAdj.1.add n) * st.mem (c.scratch.add (k * c.out.2 + n))
        else 0
      else 0
  else 0

lemma ne_null_of_wanted (h : wanted nArgs c k = true) : (c.adj k).1 ≠ .null := by
  rw [wanted, Bool.and_eq_true] at h
  exact of_decide_eq_true h.2

omit [Semiring V] [DecidableEq V] in
lemma agree_scratch (h : Agree (readCells c) st st₀) (j : ℕ) :
    st.mem (c.scratch.add j) = st₀.mem (c.scratch.add j) := h _ (Or.inl ⟨j, rfl⟩)

omit [Semiring V] [DecidableEq V] in
lemma agree_seed (h : Agree (readCells c) st st₀) {n : ℕ} (hn : n < c.out.2) :
    st.mem (c.outAdj.1.add n) = st₀.mem (c.outAdj.1.add n) := h _ (Or.inr ⟨n, hn, rfl⟩)

/-- No adjoint that is added to is read. -/
lemma Bound.not_read (hB : Bound nArgs c) (hk : k < nArgs) (hw : wanted nArgs c k = true) {i : ℕ}
    (hi : i < c.inLen k) : ¬readCells c ((c.adj k).1.add i) := by
  have hnull := ne_null_of_wanted hw
  rintro (⟨j, hj⟩ | ⟨n, hn, hp⟩)
  · exact hB.scratchApart k hk hnull i j hj
  · exact hB.seedApart k hk hnull i hi n hn hp

lemma Bound.ne_of_read (hB : Bound nArgs c) (hk : k < nArgs) (hw : wanted nArgs c k = true) {i : ℕ}
    (hi : i < c.inLen k) {p : Ptr} (hp : readCells c p) : (c.adj k).1.add i ≠ p := by
  rintro rfl
  exact hB.not_read hk hw hi hp

/-! ### The summed form -/

omit [DecidableEq V] in
lemma summedAmount_read (hB : Bound nArgs c) (hk : k < nArgs) (outAdj : V) {p : Ptr}
    (hp : readCells c p) : summedAmount nArgs c st outAdj k p = 0 := by
  unfold summedAmount
  split
  · rename_i hw
    refine sum_eq_zero fun j hj => if_neg ?_
    exact hB.ne_of_read hk hw (mem_range.1 hj) hp
  · rfl

omit [DecidableEq V] in
lemma summedArgBwd_mem (hB : Bound nArgs c) (hk : k < nArgs) (outAdj : V)
    (hst : Agree (readCells c) st st₀) (p : Ptr) :
    (summedArgBwd nArgs c outAdj st k).mem p = st.mem p + summedAmount nArgs c st₀ outAdj k p := by
  unfold summedArgBwd summedAmount
  by_cases hw : wanted nArgs c k = true
  · rw [if_neg (by simp [hw]), if_pos hw]
    by_cases hone : c.inLen k = 1
    · rw [if_pos hone, mem_add, agree_scratch hst, hone, sum_range_one, Ptr.add_zero, add_zero]
    · rw [if_neg hone]
      apply (mem_foldl_range (c.inLen k) (fun j _ st hst p => ?_) (fun j hj p hp => ?_) hst).1
      · rw [mem_add, agree_scratch hst]
      · exact if_neg (hB.ne_of_read hk hw hj hp)
  · rw [if_pos (by simpa using hw), if_neg hw, add_zero]

/-- The summed form adds the scaled partials, unless the call is marked disconnected. -/
theorem densityBwd_summed (hB : Bound nArgs c) (hsum : c.variant.testBit 6 = false) (outAdj z : V)
    (st : RevState V X) (p : Ptr) :
    (densityBwd nArgs c outAdj z st).mem p = st.mem p +
      if st.mem (c.scratch.add (argOffset c.inLen nArgs)) = 0 then 0
      else ∑ k ∈ range nArgs, summedAmount nArgs c st outAdj k p := by
  unfold densityBwd
  rw [if_neg (by simp [hsum])]
  split
  · exact (add_zero _).symm
  · have hst : Agree (readCells c) st st := fun _ _ => rfl
    apply (mem_foldl_range nArgs (fun k hk st' hst p => ?_) (fun k hk p hp => ?_) hst).1
    · exact summedArgBwd_mem hB hk outAdj hst p
    · exact summedAmount_read hB hk outAdj hp

/-! ### The elementwise form -/

/-- Each argument of the elementwise form has one value, or one for each observation. -/
def Shaped (nArgs : ℕ) (c : KernelCtx U) : Prop :=
  ∀ k < nArgs, c.inLen k = 1 ∨ c.inLen k = c.out.2

lemma slot_lt (hs : Shaped nArgs c) (hk : k < nArgs) {n : ℕ} (hn : n < c.out.2) :
    KernelCtx.slot c k n < c.inLen k := by
  unfold KernelCtx.slot
  obtain h | h := hs k hk
  · rw [if_pos h]
    omega
  · split <;> omega

lemma elementAmount_read (hB : Bound nArgs c) (hs : Shaped nArgs c) (hk : k < nArgs) {p : Ptr}
    (hp : readCells c p) : elementAmount nArgs c st k p = 0 := by
  unfold elementAmount
  split
  · rename_i hw
    refine sum_eq_zero fun n hn => if_neg ?_
    exact hB.ne_of_read hk hw (slot_lt hs hk (mem_range.1 hn)) hp
  · rfl

lemma elementArgBwd_mem (hB : Bound nArgs c) (hs : Shaped nArgs c) (hk : k < nArgs)
    (hst : Agree (readCells c) st st₀) (p : Ptr) :
    (elementArgBwd nArgs c st k).mem p = st.mem p + elementAmount nArgs c st₀ k p := by
  unfold elementArgBwd elementAmount
  by_cases hw : wanted nArgs c k = true
  · rw [if_neg (by simp [hw]), if_pos hw]
    dsimp only
    by_cases hshared : (c.adj k).2 = 1 ∧ 1 < c.out.2
    · -- every observation reads the one entry
      have hone : c.inLen k = 1 := (hB.adjLen k hk).symm.trans hshared.1
      rw [if_pos hshared, mem_add, foldl_acc_eq_sum]
      congr 1
      by_cases hp : (c.adj k).1 = p
      · rw [if_pos hp]
        refine sum_congr rfl fun n hn => ?_
        rw [KernelCtx.slot, if_pos hone, Ptr.add_zero, if_pos hp, agree_scratch hst,
          agree_scratch hst, agree_seed hst (mem_range.1 hn)]
      · rw [if_neg hp]
        refine (sum_eq_zero fun n _ => ?_).symm
        rw [KernelCtx.slot, if_pos hone, Ptr.add_zero, if_neg hp]
    · have hslot : ∀ n < c.out.2, KernelCtx.slot c k n = n := by
        intro n hn
        rw [KernelCtx.slot]
        split
        · rename_i hone
          have := hB.adjLen k hk
          omega
        · rfl
      rw [if_neg hshared]
      apply (mem_foldl_range c.out.2 (fun n hn st hst p => ?_) (fun n hn p hp => ?_) hst).1
      · have hmark := agree_scratch hst (nArgs * c.out.2 + n)
        by_cases hz : st.mem (c.scratch.add (nArgs * c.out.2 + n)) ≠ 0
        · have hz₀ : st₀.mem (c.scratch.add (nArgs * c.out.2 + n)) ≠ 0 := hmark ▸ hz
          rw [if_pos hz, hslot n hn, mem_add, agree_scratch hst, agree_seed hst hn]
          simp only [if_pos hz₀]
        · have hz₀ : ¬st₀.mem (c.scratch.add (nArgs * c.out.2 + n)) ≠ 0 := hmark ▸ hz
          rw [if_neg hz]
          simp only [if_neg hz₀, ite_self, add_zero]
      · exact if_neg (hB.ne_of_read hk hw (slot_lt hs hk hn) hp)
  · rw [if_pos (by simpa using hw), if_neg hw, add_zero]

/-- The elementwise form adds the scaled partials of every observation that is not marked
disconnected. -/
theorem densityBwd_element (hB : Bound nArgs c) (hs : Shaped nArgs c)
    (helt : c.variant.testBit 6 = true) (outAdj z : V) (st : RevState V X) (p : Ptr) :
    (densityBwd nArgs c outAdj z st).mem p =
      st.mem p + ∑ k ∈ range nArgs, elementAmount nArgs c st k p := by
  unfold densityBwd
  rw [if_pos helt]
  have hst : Agree (readCells c) st st := fun _ _ => rfl
  apply (mem_foldl_range nArgs (fun k hk st' hst p => ?_) (fun k hk p hp => ?_) hst).1
  · exact elementArgBwd_mem hB hs hk hst p
  · exact elementAmount_read hB hs hk hp

/-! ### The micro form -/

end Sound

section Micro

variable [Ring V] [DecidableEq V] {nArgs k : ℕ} {c : KernelCtx U} {st st₀ : RevState V X}

/-- The micro-op of an argument adds what the summed form adds for it. -/
lemma argMicro_mem {K : ReverseKernels U V X} (hB : Bound nArgs c)
    (hK : ∀ v, K.isZero v = true ↔ v = 0) (hlen : wanted nArgs c k = true → c.inLen k = 1) (hout : c.out.2 = 1)
    (hst : Agree (readCells c) st st₀) (p : Ptr) :
    ((argMicro nArgs c k).foldl (fun st m => runBwdMicro K m st) st).mem p = st.mem p +
      if st₀.mem (c.scratch.add (argOffset c.inLen nArgs)) = 0 then 0
      else summedAmount nArgs c st₀ (st₀.mem c.outAdj.1) k p := by
  unfold argMicro summedAmount
  by_cases hw : wanted nArgs c k = true
  · have hseed : st.mem c.outAdj.1 = st₀.mem c.outAdj.1 := by
      have h := agree_seed hst (n := 0) (by omega)
      rwa [Ptr.add_zero] at h
    have hmark : c.scratch.add (argOffset c.inLen nArgs) ≠ .null := by
      cases hc : c.scratch with
      | null => exact absurd hc hB.scratch
      | _ => rintro ⟨⟩
    rw [if_pos hw, if_pos hw, List.foldl_cons, List.foldl_nil, hlen hw, sum_range_one, Ptr.add_zero,
      add_zero, runBwdMicro]
    dsimp only
    rw [agree_scratch hst, agree_scratch hst, hseed]
    by_cases hzero : st₀.mem (c.scratch.add (argOffset c.inLen nArgs)) = 0
    · rw [if_pos ⟨hmark, (hK _).2 hzero⟩, if_pos hzero, add_zero]
    · rw [if_neg fun h => hzero ((hK _).1 h.2), if_neg hzero]
      exact mem_add ..
  · rw [if_neg hw, if_neg hw, ite_self, add_zero]
    rfl

omit [Ring V] [DecidableEq V] in
/-- Only a sum has a micro form. -/
lemma testBit_of_densityMicro (h : (densityMicro (V := V) nArgs c).1 = true) :
    c.variant.testBit 6 = false := by
  by_contra hbit
  rw [densityMicro, if_pos (Or.inl (by simpa using hbit))] at h
  cases h

/-- Where there is a micro form it adds what the backward adds. -/
theorem densityMicro_mem (hB : Bound nArgs c) {K : ReverseKernels U V X}
    (hK : ∀ v, K.isZero v = true ↔ v = 0)
    (h : (densityMicro (V := V) nArgs c).1 = true) (st : RevState V X) (p : Ptr) :
    ((densityMicro nArgs c).2.foldl (fun st m => runBwdMicro K m st) st).mem p = st.mem p +
      if st.mem (c.scratch.add (argOffset c.inLen nArgs)) = 0 then 0
      else ∑ k ∈ range nArgs, summedAmount nArgs c st (st.mem c.outAdj.1) k p := by
  unfold densityMicro at h ⊢
  by_cases hform : c.variant.testBit 6 ∨ c.out.2 ≠ 1
  · rw [if_pos hform] at h
    cases h
  rw [if_neg hform] at h ⊢
  split at h
  · cases h
  rename_i hany
  rw [if_neg hany]
  have hout : c.out.2 = 1 := by
    by_contra hne
    exact hform (Or.inr hne)
  have hlen : ∀ k < nArgs, wanted nArgs c k = true → c.inLen k = 1 := by
    intro k hk hw
    by_contra hne
    refine hany (List.any_eq_true.2 ⟨k, List.mem_range.2 hk, ?_⟩)
    rw [hw, decide_eq_true hne]
    rfl
  rw [List.foldl_flatMap]
  have hst : Agree (readCells c) st st := fun _ _ => rfl
  have hrun := (mem_foldl_range nArgs
    (fun k hk st' hst p => argMicro_mem hB hK (hlen k hk) hout hst p)
    (fun k hk p hp => by rw [summedAmount_read hB hk _ hp, ite_self]) hst).1 p
  rw [hrun]
  congr 1
  split
  · exact sum_const_zero
  · rfl

end Micro

end Densities

end Stanli
